import Retrobsd.Lib.Run

/-! The ring of kernel messages of `subr_log.c`: `logwrt` puts bytes in, `logread` takes them
out, and `FIONREAD` counts them. -/
namespace Retrobsd.MessageLog
open Lib.Run List

def msgBsize : Nat := 2048

/-- `written` and `delivered` are all the bytes that writers have put in and readers have got. -/
structure Log where
  bufx : Nat
  bufr : Nat
  bufc : Nat → UInt8
  overrun : Nat
  rdwait : Bool
  written : List UInt8
  delivered : List UInt8

inductive Fault where
  | hangs
  | tooLong
deriving DecidableEq

def wrapped (s : Log) : Log := if msgBsize - s.bufx = 0 then {s with bufx := 0} else s

def space (s : Log) : Nat × Nat :=
  let infront := if msgBsize - s.bufx = 0 then msgBsize - s.bufr else msgBsize - s.bufx
  let s := wrapped s
  if s.bufr < s.bufx then (infront,msgBsize - s.bufx + s.bufr)
  else if s.bufr = s.bufx then (infront,msgBsize)
  else (s.bufr - s.bufx,s.bufr - s.bufx)

def bcopy (bytes : List UInt8) (bufc : Nat → UInt8) (start : Nat) : Nat → UInt8 :=
  fun i => if start ≤ i then bytes.getD (i - start) (bufc i) else bufc i

/-- The `while` in `logwrt`, each pass from the label `again`. -/
def logwrtLoop : (turns : Nat) → Log → List UInt8 → Except Fault Log
  | _,s,[] => .ok s
  | 0,_,_ :: _ => .error .hangs
  | turns + 1,s,buf =>
    let (infront,writer) := space s
    let s := wrapped s
    if buf.length > writer then logwrtLoop turns {s with overrun := s.overrun + 1,bufx := s.bufr} buf
    else
      let infront := min infront buf.length
      logwrtLoop turns {s with bufc := bcopy (buf.take infront) s.bufc s.bufx,bufx := s.bufx + infront} (buf.drop infront)

def logwrt (s : Log) (buf : List UInt8) : Except Fault Log :=
  if buf.length > msgBsize then .error .tooLong
  else logwrtLoop (2 * buf.length + 1) {s with written := s.written ++ buf} buf

def bytes (bufc : Nat → UInt8) (start count : Nat) : List UInt8 := (List.range' start count).map bufc

def chunk (s : Log) (resid : Nat) : Nat := min (min (if s.bufx < s.bufr then msgBsize - s.bufr else s.bufx - s.bufr) resid) 128

def logreadLoop : (turns : Nat) → Log → (resid : Nat) → Except Fault Log
  | 0,_,_ => .error .hangs
  | turns + 1,s,resid =>
    if resid = 0 then .ok s
    else if s.bufx = s.bufr then .ok s
    else if s.bufx < s.bufr ∧ msgBsize - s.bufr = 0 then logreadLoop turns {s with bufr := 0} resid
    else
      logreadLoop turns {s with bufr := s.bufr + chunk s resid,delivered := s.delivered ++ bytes s.bufc s.bufr (chunk s resid)}
        (resid - chunk s resid)

def logread (s : Log) (resid : Nat) (ndelay : Bool) : Except Fault Log :=
  if s.bufr = s.bufx then .ok (if ndelay then s else {s with rdwait := true})
  else logreadLoop (resid + 2) {s with rdwait := false} resid

def fionread (s : Log) : Int :=
  let l : Int := s.bufx - s.bufr
  if l < 0 then l + msgBsize else l

inductive Op where
  | logwrt (buf : List UInt8)
  | logread (resid : Nat) (ndelay : Bool)

def step (s : Log) : Op → Except Fault Log
  | .logwrt buf => logwrt s buf
  | .logread resid ndelay => logread s resid ndelay

def loginit : Log := ⟨0,0,fun _ => 0,0,false,[],[]⟩

def unread (s : Log) : List UInt8 :=
  if s.bufr ≤ s.bufx then bytes s.bufc s.bufr (s.bufx - s.bufr)
  else bytes s.bufc s.bufr (msgBsize - s.bufr) ++ bytes s.bufc 0 s.bufx

/-- What is expected of a write and of a read: bytes are added at one end and taken from the
other, and only a write for which there is no room throws away the old ones, and counts it. -/
def Kept (s : Log) (op : Op) : Prop := ∃ t, step s op = .ok t ∧ fionread t = (unread t).length ∧
  match op with
  | .logwrt buf => t.delivered = s.delivered ∧ t.written = s.written ++ buf ∧
    if (unread s).length + buf.length ≤ msgBsize then unread t = unread s ++ buf ∧ t.overrun = s.overrun
    else unread t = buf ∧ t.overrun = s.overrun + 1
  | .logread resid _ => t.written = s.written ∧ t.overrun = s.overrun ∧
    t.delivered = s.delivered ++ (unread s).take resid ∧ unread t = (unread s).drop resid

def Roomy (s : Log) : Op → Prop
  | .logwrt buf => buf = [] ∨ ¬ (s.bufr = 0 ∧ s.bufx = msgBsize) ∧
    (s.bufr = 0 ∨ (unread s).length + buf.length ≠ msgBsize ∧ buf.length ≠ msgBsize)
  | _ => True

structure Sane (s : Log) : Prop where
  reader : s.bufr ≤ msgBsize
  writer : s.bufx ≤ msgBsize
  start : s.bufx = 0 → s.bufr = 0

@[simp] theorem length_bytes (bufc : Nat → UInt8) (start count : Nat) : (bytes bufc start count).length = count := by
  simp [bytes]

theorem bytes_append (bufc : Nat → UInt8) (start count more : Nat) :
    bytes bufc start count ++ bytes bufc (start + count) more = bytes bufc start (count + more) := by
  rw [bytes,bytes,bytes,← map_append,range'_append_1]

theorem bytes_bcopy (buf : List UInt8) (bufc : Nat → UInt8) (start : Nat) :
    bytes (bcopy buf bufc start) start buf.length = buf := by
  apply ext_getElem
  · simp
  intro i here there
  simp [bytes,bcopy,there]

variable {start : Nat}

theorem bytes_bcopy_before (buf : List UInt8) (bufc : Nat → UInt8) {first count : Nat} (before : first + count ≤ start) :
    bytes (bcopy buf bufc start) first count = bytes bufc first count := by
  apply map_congr_left
  intro i member
  rw [mem_range'_1] at member
  rw [bcopy,if_neg (by omega)]

theorem bytes_bcopy_after (buf : List UInt8) (bufc : Nat → UInt8) {first count : Nat} (after : start + buf.length ≤ first) :
    bytes (bcopy buf bufc start) first count = bytes bufc first count := by
  apply map_congr_left
  intro i member
  rw [mem_range'_1] at member
  rw [bcopy,if_pos (by omega)]
  rw [getD_eq_getElem?_getD,List.getElem?_eq_none (by omega)]
  rfl

variable {s : Log}

theorem fionread_eq (sane : Sane s) : fionread s = (unread s).length := by
  have reader := sane.reader
  have writer := sane.writer
  rw [fionread,unread]
  split_ifs <;> simp <;> omega

structure Took (s t : Log) (k : Nat) : Prop where
  sane : Sane t
  written : t.written = s.written
  overrun : t.overrun = s.overrun
  delivered : t.delivered = s.delivered ++ (unread s).take k
  unread : MessageLog.unread t = (unread s).drop k

theorem Took.trans {t u : Log} {k l : Nat} (first : Took s t k) (second : Took t u l) : Took s u (k + l) := by
  refine ⟨second.sane,second.written.trans first.written,second.overrun.trans first.overrun,?_,?_⟩
  · rw [second.delivered,first.delivered,first.unread,append_assoc,← take_add]
  · rw [second.unread,first.unread,drop_drop]

theorem took_wrap (sane : Sane s) (behind : s.bufx < s.bufr) (last : msgBsize - s.bufr = 0) : Took s {s with bufr := 0} 0 := by
  have reader := sane.reader
  refine ⟨⟨Nat.zero_le _,sane.writer,fun _ => rfl⟩,rfl,rfl,by simp,?_⟩
  have empty : bytes s.bufc s.bufr (msgBsize - s.bufr) = [] := by
    rw [last]
    rfl
  rw [unread,unread,if_pos (Nat.zero_le _),if_neg (by omega),empty]
  rfl

theorem took_bytes (sane : Sane s) {l : Nat} (inside : l ≤ if s.bufx < s.bufr then msgBsize - s.bufr else s.bufx - s.bufr) :
    Took s {s with bufr := s.bufr + l,delivered := s.delivered ++ bytes s.bufc s.bufr l} l ∧ l ≤ (unread s).length := by
  have reader := sane.reader
  have writer := sane.writer
  by_cases behind : s.bufx < s.bufr
  · rw [if_pos behind] at inside
    have parts : unread s = bytes s.bufc s.bufr l ++ (bytes s.bufc (s.bufr + l)
      (msgBsize - (s.bufr + l)) ++ bytes s.bufc 0 s.bufx) := by
      rw [unread,if_neg (by omega),← append_assoc,bytes_append,show l + (msgBsize - (s.bufr + l)) = msgBsize - s.bufr by omega]
    refine ⟨⟨⟨?_,writer,?_⟩,rfl,rfl,?_,?_⟩,?_⟩
    · dsimp only
      omega
    · intro zero
      have := sane.start zero
      omega
    · rw [parts,take_left' (length_bytes _ _ _)]
    · rw [parts,drop_left' (length_bytes _ _ _),unread,if_neg (by dsimp only; omega)]
    · rw [parts,length_append,length_bytes]
      omega
  rw [if_neg behind] at inside
  have parts : unread s = bytes s.bufc s.bufr l ++ bytes s.bufc (s.bufr + l) (s.bufx - (s.bufr + l)) := by
    rw [unread,if_pos (by omega),bytes_append,show l + (s.bufx - (s.bufr + l)) = s.bufx - s.bufr by omega]
  refine ⟨⟨⟨?_,writer,?_⟩,rfl,rfl,?_,?_⟩,?_⟩
  · dsimp only
    omega
  · intro zero
    dsimp only at zero ⊢
    omega
  · rw [parts,take_left' (length_bytes _ _ _)]
  · rw [parts,drop_left' (length_bytes _ _ _),unread,if_pos (by dsimp only; omega)]
  · rw [parts,length_append,length_bytes]
    omega

theorem unread_eq_nil (sane : Sane s) : unread s = [] ↔ s.bufx = s.bufr := by
  have reader := sane.reader
  have start := sane.start
  rw [← length_eq_zero_iff,unread]
  split_ifs
  · rw [length_bytes]
    omega
  rw [length_append,length_bytes,length_bytes]
  omega

theorem took_none (sane : Sane s) (empty : s.bufx = s.bufr) (resid : Nat) : Took s s resid := by
  have none := (unread_eq_nil sane).mpr empty
  exact ⟨sane,rfl,rfl,by rw [none]; simp,by rw [none]; simp⟩

theorem logreadLoop_took (turns : Nat) (sane : Sane s) (resid : Nat)
    (enough : resid + (if s.bufx < s.bufr then 1 else 0) < turns) : ∃ t, logreadLoop turns s resid = .ok t ∧ Took s t resid := by
  induction turns generalizing s resid with
  | zero => omega
  | succ turns ih =>
    rw [logreadLoop]
    split_ifs with none empty behind
    · exact ⟨s,rfl,⟨sane,rfl,rfl,by simp [none],by simp [none]⟩⟩
    · exact ⟨s,rfl,took_none sane empty resid⟩
    · have turned := took_wrap sane behind.1 behind.2
      rw [if_pos behind.1] at enough
      obtain ⟨t,ok,took⟩ := ih turned.sane resid (by rw [if_neg (by dsimp only; omega)]; omega)
      refine ⟨t,ok,?_⟩
      have both := turned.trans took
      rwa [Nat.zero_add] at both
    have reader := sane.reader
    have some : 0 < chunk s resid := by
      rw [chunk]
      split_ifs <;> omega
    have most : chunk s resid ≤ resid := by
      rw [chunk]
      omega
    have inside : chunk s resid ≤ if s.bufx < s.bufr then msgBsize - s.bufr else s.bufx - s.bufr := by
      rw [chunk]
      omega
    obtain ⟨moved,there⟩ := took_bytes sane inside
    generalize chunk s resid = l at *
    have fewer : resid - l + (if s.bufx < s.bufr + l then 1 else 0) < turns := by
      split_ifs at enough inside ⊢ <;> omega
    obtain ⟨t,ok,took⟩ := ih moved.sane (resid - l) fewer
    refine ⟨t,ok,?_⟩
    have both := moved.trans took
    rwa [Nat.add_sub_cancel' most] at both

variable {buf : List UInt8}

theorem logwrtLoop_pass (turns : Nat) (s : Log) (some : buf ≠ []) : logwrtLoop (turns + 1) s buf =
      if buf.length > (space s).2 then
        logwrtLoop turns {wrapped s with overrun := (wrapped s).overrun + 1,bufx := (wrapped s).bufr} buf
      else
        logwrtLoop turns {wrapped s with
            bufc := bcopy (buf.take (min (space s).1 buf.length)) (wrapped s).bufc (wrapped s).bufx
            bufx := (wrapped s).bufx + min (space s).1 buf.length}
          (buf.drop (min (space s).1 buf.length)) := by
  obtain ⟨byte,rest,rfl⟩ := exists_cons_of_ne_nil some
  rw [logwrtLoop]
  exact some

def stored (s : Log) (start : Nat) (buf : List UInt8) : Log := {s with bufc := bcopy buf s.bufc start,bufx := start + buf.length}

theorem pass_behind (turns : Nat) (begins : wrapped s = {s with bufx := start}) (behind : start < s.bufr)
    (some : buf ≠ []) (fits : start + buf.length ≤ s.bufr) :
    logwrtLoop (turns + 1) s buf = .ok (stored s start buf) := by
  have room : space s = (s.bufr - start,s.bufr - start) := by
    rw [space,begins]
    dsimp only
    rw [if_neg (by omega),if_neg (by omega)]
  have whole : min (s.bufr - start) buf.length = buf.length := by omega
  rw [logwrtLoop_pass turns s some,room,begins]
  dsimp only
  rw [if_neg (by omega),whole,take_length,drop_length,logwrtLoop]
  rfl

theorem pass_ahead (turns : Nat) (ahead : s.bufr ≤ s.bufx) (inside : s.bufx < msgBsize) (some : buf ≠ [])
    (fits : buf.length ≤ msgBsize - (s.bufx - s.bufr)) :
    logwrtLoop (turns + 1) s buf = logwrtLoop turns (stored s s.bufx (buf.take (msgBsize - s.bufx)))
    (buf.drop (msgBsize - s.bufx)) := by
  have begins : wrapped s = s := by rw [wrapped,if_neg (by omega)]
  have room : space s = (msgBsize - s.bufx,msgBsize - (s.bufx - s.bufr)) := by
    have left : ¬ msgBsize - s.bufx = 0 := by omega
    simp only [space,begins,if_neg left]
    split_ifs
    · exact Prod.ext rfl (by dsimp only; omega)
    · exact Prod.ext rfl (by dsimp only; omega)
    · omega
  rw [logwrtLoop_pass turns s some,room,begins]
  dsimp only
  rw [if_neg (by omega)]
  by_cases all : buf.length ≤ msgBsize - s.bufx
  · rw [Nat.min_eq_right all,take_of_length_le all,drop_of_length_le all,take_length,drop_length]
    rfl
  rw [Nat.min_eq_left (by omega)]
  congr 1
  rw [stored,length_take]
  congr 1
  omega

theorem unread_stored_behind (begins : wrapped s = {s with bufx := start}) (sane : Sane s) (behind : start < s.bufr)
    (fits : start + buf.length < s.bufr) : unread (stored s start buf) = unread s ++ buf := by
  have reader := sane.reader
  have writer := sane.writer
  have before : unread s = bytes s.bufc s.bufr (msgBsize - s.bufr) ++ bytes s.bufc 0 start := by
    rw [wrapped] at begins
    split_ifs at begins with last
    · have zero : start = 0 := (congrArg Log.bufx begins).symm
      rw [unread,if_pos (by omega),zero,show s.bufx = msgBsize by omega]
      simp [bytes]
    · have same : s.bufx = start := congrArg Log.bufx begins
      rw [unread,if_neg (by omega),same]
  rw [before,unread,stored]
  dsimp only
  rw [if_neg (by omega),bytes_bcopy_after buf s.bufc (by omega),append_assoc,← bytes_append _ 0 start,
    bytes_bcopy_before buf s.bufc (by omega),Nat.zero_add,bytes_bcopy]

theorem unread_stored_ahead (ahead : s.bufr ≤ s.bufx) (buf : List UInt8) : unread (stored s s.bufx buf) = unread s ++ buf := by
  rw [unread,unread,stored]
  dsimp only
  rw [if_pos (by omega),if_pos ahead,show s.bufx + buf.length - s.bufr = s.bufx - s.bufr + buf.length by omega,← bytes_append,
    bytes_bcopy_before buf s.bufc (by omega),show s.bufr + (s.bufx - s.bufr) = s.bufx by omega,bytes_bcopy]

theorem length_unread (s : Log) :
    (unread s).length = if s.bufr ≤ s.bufx then s.bufx - s.bufr else msgBsize - s.bufr + s.bufx := by
  rw [unread]
  split_ifs <;> simp

structure Put (s t : Log) (buf : List UInt8) : Prop where
  sane : Sane t
  written : t.written = s.written
  delivered : t.delivered = s.delivered
  overrun : t.overrun = s.overrun
  bufr : t.bufr = s.bufr
  kept : (unread s).length + buf.length < msgBsize ∨ s.bufr = 0 → unread t = unread s ++ buf
  lost : (unread s).length + buf.length = msgBsize → s.bufr ≠ 0 → t.bufx = t.bufr

theorem put_behind (sane : Sane s) (begins : wrapped s = {s with bufx := start}) (behind : start < s.bufr)
    (some : buf ≠ []) (length : (unread s).length = msgBsize - s.bufr + start)
    (fits : (unread s).length + buf.length ≤ msgBsize) : Put s (stored s start buf) buf := by
  have reader := sane.reader
  have bytes := length_pos_iff.mpr some
  refine ⟨⟨reader,?_,?_⟩,rfl,rfl,rfl,rfl,?_,?_⟩
  · rw [stored]
    dsimp only
    omega
  · intro zero
    rw [stored] at zero
    dsimp only at zero
    omega
  · intro room
    exact unread_stored_behind begins sane behind (by omega)
  · intro brim _
    rw [stored]
    dsimp only
    omega

theorem logwrtLoop_put (turns : Nat) (sane : Sane s) (some : buf ≠ [])
    (fits : (unread s).length + buf.length ≤ msgBsize) (unfilled : ¬ (s.bufr = 0 ∧ s.bufx = msgBsize)) :
    ∃ t, logwrtLoop (turns + 2) s buf = .ok t ∧ Put s t buf := by
  have reader := sane.reader
  have writer := sane.writer
  have length := length_unread s
  by_cases last : s.bufx = msgBsize
  · have begins : wrapped s = {s with bufx := 0} := by rw [wrapped,if_pos (by omega)]
    have behind : 0 < s.bufr := by omega
    have whole : (unread s).length = msgBsize - s.bufr + 0 := by
      rw [length,if_pos (by omega)]
      omega
    exact ⟨_,pass_behind (turns + 1) begins behind some (by omega),put_behind sane begins behind some whole fits⟩
  have begins : wrapped s = {s with bufx := s.bufx} := by rw [wrapped,if_neg (by omega)]
  by_cases behind : s.bufx < s.bufr
  · have whole : (unread s).length = msgBsize - s.bufr + s.bufx := by rw [length,if_neg (by omega)]
    exact ⟨_,pass_behind (turns + 1) begins behind some (by omega),put_behind sane begins behind some whole fits⟩
  have ahead : s.bufr ≤ s.bufx := by omega
  rw [if_pos ahead] at length
  rw [pass_ahead (turns + 1) ahead (by omega) some (by omega)]
  by_cases all : buf.length ≤ msgBsize - s.bufx
  · rw [take_of_length_le all,drop_of_length_le all,logwrtLoop]
    have bytes := length_pos_iff.mpr some
    refine ⟨_,rfl,⟨reader,?_,?_⟩,rfl,rfl,rfl,rfl,fun _ => unread_stored_ahead ahead buf,?_⟩
    · rw [stored]
      dsimp only
      omega
    · intro zero
      rw [stored] at zero
      dsimp only at zero
      omega
    · intro full high
      omega
  -- the bytes that are left go to the start of the ring
  have first : (buf.take (msgBsize - s.bufx)).length = msgBsize - s.bufx := by
    rw [length_take]
    omega
  have rest : buf.drop (msgBsize - s.bufx) ≠ [] := by
    intro none
    have := drop_eq_nil_iff.mp none
    omega
  have left : (buf.drop (msgBsize - s.bufx)).length = buf.length - (msgBsize - s.bufx) := length_drop
  have mid := unread_stored_ahead ahead (buf.take (msgBsize - s.bufx))
  have sum : (unread (stored s s.bufx (buf.take (msgBsize - s.bufx)))).length = msgBsize - s.bufr := by
    rw [mid,length_append,first]
    omega
  have sane' : Sane (stored s s.bufx (buf.take (msgBsize - s.bufx))) := by
    refine ⟨reader,?_,?_⟩
    · rw [stored,first]
      dsimp only
      omega
    intro zero
    rw [stored,first] at zero
    dsimp only at zero
    omega
  have begins' : wrapped (stored s s.bufx (buf.take (msgBsize - s.bufx))) =
    {stored s s.bufx (buf.take (msgBsize - s.bufx)) with bufx := 0} := by
    rw [wrapped,if_pos]
    rw [stored,first]
    dsimp only
    omega
  have behind' : 0 < (stored s s.bufx (buf.take (msgBsize - s.bufx))).bufr := by
    change 0 < s.bufr
    omega
  have put := put_behind sane' begins' behind' rest sum (by omega)
  refine ⟨_,pass_behind turns begins' behind' rest ?_,put.sane,put.written,put.delivered,put.overrun,put.bufr,?_,?_⟩
  · change 0 + _ ≤ s.bufr
    omega
  · intro room
    have positive : 0 < s.bufr := behind'
    have less : (unread s).length + buf.length < msgBsize := by omega
    rw [put.kept (Or.inl (by omega)),mid,append_assoc,take_append_drop]
  · intro full high
    exact put.lost (by omega) high

theorem space_free (sane : Sane s) (unfilled : ¬ (s.bufr = 0 ∧ s.bufx = msgBsize)) :
    (space s).2 = msgBsize - (unread s).length := by
  have reader := sane.reader
  have writer := sane.writer
  rw [length_unread s,space]
  by_cases last : msgBsize - s.bufx = 0
  · simp only [wrapped,if_pos last]
    rw [if_neg (by omega),if_neg (by omega),if_pos (by omega)]
    omega
  · simp only [wrapped,if_neg last]
    split_ifs <;> dsimp only <;> omega

def discarded (s : Log) : Log := {wrapped s with overrun := (wrapped s).overrun + 1,bufx := (wrapped s).bufr}

theorem discarded_eq (s : Log) : discarded s = {s with overrun := s.overrun + 1,bufx := s.bufr} := by
  rw [discarded,wrapped]
  split_ifs <;> rfl

theorem discarded_sane (sane : Sane s) : Sane (discarded s) ∧ unread (discarded s) = [] := by
  rw [discarded_eq]
  refine ⟨⟨sane.reader,sane.reader,id⟩,?_⟩
  rw [unread,if_pos (Nat.le_refl _)]
  dsimp only
  rw [Nat.sub_self]
  rfl

theorem logwrt_cases (sane : Sane s) (some : buf ≠ []) (short : buf.length ≤ msgBsize) :
    ((s.bufr = 0 ∧ s.bufx = msgBsize) ∧ ∃ t, logwrt s buf = .ok t ∧ t.overrun = s.overrun) ∨
    (¬ (s.bufr = 0 ∧ s.bufx = msgBsize) ∧ (unread s).length + buf.length ≤ msgBsize ∧
      ∃ t, logwrt s buf = .ok t ∧ Put {s with written := s.written ++ buf} t buf) ∨
    (¬ (s.bufr = 0 ∧ s.bufx = msgBsize) ∧ msgBsize < (unread s).length + buf.length ∧
      ∃ t, logwrt s buf = .ok t ∧ Put (discarded {s with written := s.written ++ buf}) t buf) := by
  have sane' : Sane {s with written := s.written ++ buf} := ⟨sane.reader,sane.writer,sane.start⟩
  have bytes := length_pos_iff.mpr some
  rw [logwrt,if_neg (by omega)]
  by_cases full : s.bufr = 0 ∧ s.bufx = msgBsize
  · refine Or.inl ⟨full,?_⟩
    have begins : wrapped {s with written := s.written ++ buf} = {s with written := s.written ++ buf,bufx := 0} := by
      rw [wrapped,if_pos]
      change msgBsize - s.bufx = 0
      omega
    have room : space {s with written := s.written ++ buf} = (msgBsize,msgBsize) := by
      rw [space,begins]
      dsimp only
      rw [full.1,full.2]
      rfl
    rw [logwrtLoop_pass _ _ some,room,begins,if_neg (by dsimp only; omega),Nat.min_eq_right short,drop_length,logwrtLoop]
    exact ⟨_,rfl,rfl⟩
  by_cases fits : (unread s).length + buf.length ≤ msgBsize
  · obtain ⟨t,ok,put⟩ := logwrtLoop_put (2 * buf.length - 1) sane' some fits full
    rw [show 2 * buf.length - 1 + 2 = 2 * buf.length + 1 by omega] at ok
    exact Or.inr (Or.inl ⟨full,fits,t,ok,put⟩)
  refine Or.inr (Or.inr ⟨full,by omega,?_⟩)
  obtain ⟨clear,empty⟩ := discarded_sane sane'
  have free : (space {s with written := s.written ++ buf}).2 = msgBsize - (unread s).length := space_free sane' full
  have unfilled : ¬ ((discarded {s with written := s.written ++ buf}).bufr = 0 ∧
      (discarded {s with written := s.written ++ buf}).bufx = msgBsize) := by
    rw [discarded_eq]
    rintro ⟨zero,last⟩
    dsimp only at zero last
    rw [zero] at last
    cases last
  obtain ⟨t,ok,put⟩ := logwrtLoop_put (2 * buf.length - 2) clear some (by rw [empty]; simpa using short) unfilled
  rw [show 2 * buf.length - 2 + 2 = 2 * buf.length by omega] at ok
  rw [logwrtLoop_pass _ _ some,if_pos (by omega)]
  exact ⟨t,ok,put⟩

def Proper : Op → Prop
  | .logwrt buf => buf.length ≤ msgBsize
  | _ => True

theorem Put.full_lost {t : Log} (put : Put s t buf) (brim : (unread s).length + buf.length = msgBsize)
    (high : s.bufr ≠ 0) : unread t = [] := (unread_eq_nil put.sane).mpr (put.lost brim high)

theorem logwrt_kept_iff (sane : Sane s) (short : buf.length ≤ msgBsize) :
    Kept s (.logwrt buf) ↔ Roomy s (.logwrt buf) := by
  by_cases some : buf = []
  · subst some
    refine ⟨fun _ => Or.inl rfl,fun _ => ?_⟩
    have sane' : Sane {s with written := s.written ++ []} := ⟨sane.reader,sane.writer,sane.start⟩
    have length : (unread s).length + ([] : List UInt8).length ≤ msgBsize := by
      have reader := sane.reader
      have writer := sane.writer
      rw [length_unread s]
      split_ifs <;> simp <;> omega
    refine ⟨{s with written := s.written ++ []},rfl,fionread_eq sane',rfl,rfl,?_⟩
    rw [if_pos length]
    exact ⟨(append_nil _).symm,rfl⟩
  have whole : ∀ t : Log, [] ≠ unread t ++ buf := fun t same => some (append_eq_nil_iff.mp same.symm).2
  rcases logwrt_cases sane some short with ⟨full,t,ok,same⟩ | ⟨unfilled,fits,t,ok,put⟩ | ⟨unfilled,exceeds,t,ok,put⟩
  · have length : (unread s).length = msgBsize := by
      rw [length_unread s,full.1,full.2]
      rfl
    have bytes := length_pos_iff.mpr some
    constructor
    · rintro ⟨u,ran,-,-,-,expected⟩
      rw [step,ok] at ran
      cases ran
      rw [if_neg (by omega)] at expected
      omega
    · rintro (none | ⟨unfilled,-⟩)
      · exact absurd none some
      · exact absurd full unfilled
  · constructor
    · rintro ⟨u,ran,-,-,-,expected⟩
      rw [step,ok] at ran
      cases ran
      rw [if_pos fits] at expected
      refine Or.inr ⟨unfilled,?_⟩
      by_cases low : s.bufr = 0
      · exact Or.inl low
      have brim : (unread s).length + buf.length ≠ msgBsize := by
        intro brim
        exact whole s ((put.full_lost brim low).symm.trans expected.1)
      exact Or.inr ⟨brim,by omega⟩
    · rintro (none | ⟨-,roomy⟩)
      · exact absurd none some
      refine ⟨t,ok,fionread_eq put.sane,put.delivered,put.written,?_⟩
      rw [if_pos fits]
      refine ⟨put.kept ?_,put.overrun⟩
      rcases roomy with zero | ⟨below,-⟩
      · exact Or.inr zero
      · exact Or.inl (by change (unread s).length + _ < _; omega)
  · obtain ⟨clear,empty⟩ := discarded_sane (s := {s with written := s.written ++ buf}) ⟨sane.reader,sane.writer,sane.start⟩
    have same := discarded_eq {s with written := s.written ++ buf}
    have reader : (discarded {s with written := s.written ++ buf}).bufr = s.bufr := by rw [same]
    constructor
    · rintro ⟨u,ran,-,-,-,expected⟩
      rw [step,ok] at ran
      cases ran
      rw [if_neg (by omega)] at expected
      refine Or.inr ⟨unfilled,?_⟩
      by_cases low : s.bufr = 0
      · exact Or.inl low
      have brim : buf.length ≠ msgBsize := by
        intro brim
        have lost := put.full_lost (by rw [empty]; simpa using brim) (by rwa [reader])
        exact some (expected.1.symm.trans lost)
      exact Or.inr ⟨by omega,brim⟩
    · rintro (none | ⟨-,roomy⟩)
      · exact absurd none some
      refine ⟨t,ok,fionread_eq put.sane,put.delivered.trans (by rw [same]),put.written.trans (by rw [same]),?_⟩
      rw [if_neg (by omega)]
      refine ⟨?_,put.overrun.trans (by rw [same])⟩
      rw [put.kept ?_,empty,nil_append]
      rcases roomy with zero | ⟨-,below⟩
      · exact Or.inr (reader.trans zero)
      · exact Or.inl (by rw [empty]; change 0 + _ < _; omega)

theorem logread_took (sane : Sane s) (resid : Nat) (ndelay : Bool) : ∃ t, logread s resid ndelay = .ok t ∧ Took s t resid := by
  rw [logread]
  split_ifs with empty delay
  · exact ⟨s,rfl,took_none sane empty.symm resid⟩
  · have none := took_none sane empty.symm resid
    exact ⟨_,rfl,⟨⟨sane.reader,sane.writer,sane.start⟩,rfl,rfl,none.delivered,none.unread⟩⟩
  · have sane' : Sane {s with rdwait := false} := ⟨sane.reader,sane.writer,sane.start⟩
    obtain ⟨t,ok,took⟩ := logreadLoop_took (resid + 2) sane' resid (by split_ifs <;> omega)
    exact ⟨t,ok,⟨took.sane,took.written,took.overrun,took.delivered,took.unread⟩⟩

theorem kept_iff (sane : Sane s) {op : Op} (proper : Proper op) : Kept s op ↔ Roomy s op := by
  cases op with
  | logwrt buf => exact logwrt_kept_iff sane proper
  | logread resid ndelay =>
    refine ⟨fun _ => trivial,fun _ => ?_⟩
    obtain ⟨t,ok,took⟩ := logread_took sane resid ndelay
    exact ⟨t,ok,fionread_eq took.sane,took.written,took.overrun,took.delivered,took.unread⟩

theorem step_sane {t : Log} {op : Op} (sane : Sane s) (proper : Proper op) (roomy : Roomy s op)
    (ok : step s op = .ok t) : Sane t := by
  cases op with
  | logwrt buf =>
    rcases roomy with rfl | ⟨unfilled,-⟩
    · cases ok
      exact ⟨sane.reader,sane.writer,sane.start⟩
    by_cases some : buf = []
    · subst some
      cases ok
      exact ⟨sane.reader,sane.writer,sane.start⟩
    rcases logwrt_cases sane some proper with ⟨full,-⟩ | ⟨-,-,u,ran,put⟩ | ⟨-,-,u,ran,put⟩
    · exact absurd full unfilled
    · rw [step,ran] at ok
      cases ok
      exact put.sane
    · rw [step,ran] at ok
      cases ok
      exact put.sane
  | logread resid ndelay =>
    obtain ⟨u,ran,took⟩ := logread_took sane resid ndelay
    rw [step,ran] at ok
    cases ok
    exact took.sane

/-- What became of the bytes that were written: those that have left the ring were delivered
or thrown away, a piece at a time. -/
structure Accounted (s : Log) (pieces : List (List UInt8 × Bool)) : Prop where
  written : s.written = pieces.flatMap Prod.fst ++ unread s
  delivered : s.delivered = (pieces.filter Prod.snd).flatMap Prod.fst
  overrun : s.overrun = (pieces.filter fun piece => !piece.2).length

theorem Accounted.step {t : Log} {op : Op} {pieces : List (List UInt8 × Bool)} (accounted : Accounted s pieces)
    (kept : Kept s op)
    (ok : MessageLog.step s op = .ok t) : ∃ pieces', Accounted t pieces' := by
  obtain ⟨u,ran,-,expected⟩ := kept
  rw [ran] at ok
  cases ok
  cases op with
  | logwrt buf =>
    obtain ⟨delivered,written,expected⟩ := expected
    split_ifs at expected with fits
    · refine ⟨pieces,?_,delivered.trans accounted.delivered,expected.2.trans accounted.overrun⟩
      rw [written,expected.1,accounted.written,append_assoc]
    refine ⟨pieces ++ [(unread s,false)],?_,?_,?_⟩
    · rw [written,expected.1,accounted.written]
      simp
    · rw [delivered,accounted.delivered]
      simp
    · rw [expected.2,accounted.overrun]
      simp
  | logread resid ndelay =>
    obtain ⟨written,overrun,delivered,rest⟩ := expected
    refine ⟨pieces ++ [((unread s).take resid,true)],?_,?_,?_⟩
    · rw [written,accounted.written,rest]
      simp
    · rw [delivered,accounted.delivered]
      simp
    · rw [overrun,accounted.overrun]
      simp

theorem loginit_sane : Sane loginit := ⟨Nat.zero_le _,Nat.zero_le _,fun _ => rfl⟩

theorem loginit_accounted : Accounted loginit [] := ⟨rfl,rfl,rfl⟩

theorem along_kept (ops : List Op) (proper : ∀ op ∈ ops, Proper op) :
    Along step Kept loginit ops ↔ Along step Roomy loginit ops :=
  Along.congr (fun _ _ sane now => kept_iff sane now) (fun _ _ _ sane now roomy ok => step_sane sane now roomy ok) ops loginit
    loginit_sane (Along.of_forall loginit proper)

/-- In every run of writes and reads each does what is expected of it if and only if each is
roomy; then the bytes delivered are those written, in their order, but for the pieces thrown
away, which `sc_overrun` counts, and `FIONREAD` tells how many are left. -/
theorem log_kept (ops : List Op) (proper : ∀ op ∈ ops, Proper op) :
    (Along step Kept loginit ops ↔ Along step Roomy loginit ops) ∧
    (Along step Roomy loginit ops → ∃ s pieces, run step loginit ops = .ok s ∧ Accounted s pieces ∧
    fionread s = (unread s).length) := by
  have short : Along step (fun _ op => Proper op) loginit ops := Along.of_forall loginit proper
  refine ⟨along_kept ops proper,fun roomy => ?_⟩
  have both := short.and roomy
  have goes : ∀ s op, (Sane s ∧ ∃ pieces, Accounted s pieces) → Proper op ∧ Roomy s op →
      ∃ t, step s op = .ok t ∧ Sane t ∧ ∃ pieces, Accounted t pieces := by
    rintro s op ⟨sane,pieces,accounted⟩ ⟨now,room⟩
    have kept := (kept_iff sane now).mpr room
    obtain ⟨t,ok,-⟩ := id kept
    exact ⟨t,ok,step_sane sane now room ok,accounted.step kept ok⟩
  obtain ⟨s,ran,sane,pieces,accounted⟩ := run_total goes ops loginit ⟨loginit_sane,[],loginit_accounted⟩ both
  exact ⟨s,pieces,ran,accounted,fionread_eq sane⟩

instance (s : Log) (op : Op) : Decidable (Roomy s op) := by
  unfold Roomy
  split <;> infer_instance

def someOps : List Op := [.logwrt (List.replicate 2048 7),.logread 3000 false,.logwrt [1,2,3],.logread 2 false]

theorem log_kept_someOps : (∀ op ∈ someOps, Proper op) ∧ ∃ s pieces, run step loginit someOps = .ok s ∧ Accounted s pieces ∧
    fionread s = (unread s).length := by
  have proper : ∀ op ∈ someOps, Proper op := by simp [-List.reduceReplicate,someOps,Proper,msgBsize]
  exact ⟨proper,(log_kept someOps proper).2 (by decide +kernel)⟩

/-- One byte is written and read; then a write fills the whole ring, which looks empty after it. -/
theorem filled_looks_empty : ¬ Along step Kept loginit [.logwrt [7],.logread 1 false,.logwrt (List.replicate 2048 9)] := by
  rw [along_kept]
  · decide +kernel
  · simp [-List.reduceReplicate,Proper,msgBsize]

end Retrobsd.MessageLog

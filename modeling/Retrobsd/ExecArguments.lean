import Retrobsd.Block
import Retrobsd.Lib.Pieces

/-! The strings that `execve` of kern_exec.c collects in blocks of the swap device. A block
is one of the area's own, together with the buffer that may have it, and the rest of the
system may take the buffers that are not busy whenever the process may sleep. The user's
memory has a byte at every address. -/
namespace Retrobsd.ExecArguments
open Lib.Pieces List

abbrev Byte := BitVec 8
abbrev Mem := Nat → Byte

def ncargs : Nat := 5120
def e2big : Nat := 7
def efault : Nat := 14

inductive Hang where
  | stuck
  | wild
deriving DecidableEq

structure Buf where
  data : Nat → Byte
  busy : Bool
  delwri : Bool

structure Slot where
  disk : Nat → Byte
  cache : Option Buf

structure Swap where
  slot : Nat → Slot
  clock : Nat

/-- What the rest of the system does while the process sleeps: the buffers that it takes,
and what is in one that `getblk` gives for a block that has none. -/
structure Others where
  takes : Nat → Nat → Bool
  fresh : Nat → Nat → Nat → Byte

def Slot.taken (s : Slot) : Slot :=
  match s.cache with
  | none => s
  | some b => if b.busy then s else ⟨if b.delwri then b.data else s.disk,none⟩

def Swap.sleep (o : Others) (w : Swap) : Swap := ⟨fun k => if o.takes w.clock k then (w.slot k).taken else w.slot k,w.clock + 1⟩

def Swap.put (w : Swap) (k : Nat) (s : Slot) : Swap := {w with slot := Function.update w.slot k s}

def Swap.onBuf (w : Swap) (k : Nat) (f : Buf → Buf) : Swap := w.put k {w.slot k with cache := (w.slot k).cache.map f}

def Slot.hold (s : Slot) (data : Nat → Byte) : Slot := {s with cache := match s.cache with
    | none => some ⟨data,true,false⟩
    | some b => some {b with busy := true}}

def getblk (o : Others) (w : Swap) (k : Nat) : Swap :=
  let w := w.sleep o
  w.put k ((w.slot k).hold (o.fresh w.clock k))

def bread (o : Others) (w : Swap) (k : Nat) : Swap :=
  let w := w.sleep o
  w.put k ((w.slot k).hold (w.slot k).disk)

def bdwrite (w : Swap) (k : Nat) : Swap := w.onBuf k fun b => {b with busy := false,delwri := true}
def brelse (w : Swap) (k : Nat) : Swap := w.onBuf k fun b => {b with busy := false}

def cancel (w : Swap) (k : Nat) : Swap := w.onBuf k fun b => {b with delwri := false}

def incore (w : Swap) (k : Nat) : Bool := (w.slot k).cache.isSome

def copystr (src : Nat → Byte) (maxlength : Nat) : List Byte × Bool := piece 0 src maxlength

def word (m : Mem) (a : Nat) : Nat :=
    (m a).toNat + 256 * (m (a + 1)).toNat + 65536 * (m (a + 2)).toNat + 16777216 * (m (a + 3)).toNat

structure Script where
  cfname : Nat → Byte
  cfarg : Nat → Byte

structure Source where
  mem : Mem
  fname : Nat
  script : Option Script

structure Cursor where
  na : Nat
  ne : Nat
  argp : Nat
  envp : Nat
deriving DecidableEq

inductive Pick where
  | sharg (src : Nat → Byte)
  | ap (pointer : Nat)

def nextArg (x : Source) (c : Cursor) : Pick × Cursor :=
  if c.argp ≠ 0 then (.ap (word x.mem c.argp),{c with argp := c.argp + 4}) else (.ap 0,c)

def pickArg (x : Source) (c : Cursor) : Pick × Cursor :=
  match x.script with
  | none => nextArg x c
  | some script =>
    if c.na = 0 then (.sharg script.cfname,{c with argp := c.argp + 4})
    else if c.na = 1 ∧ script.cfarg 0 ≠ 0 then (.sharg script.cfarg,c)
    else if c.na = 1 ∨ c.na = 2 ∧ script.cfarg 0 ≠ 0 then (.ap x.fname,c)
    else nextArg x c

def Pick.isNull : Pick → Bool
  | .sharg _ => false
  | .ap pointer => pointer == 0

def nextEnv (x : Source) (c : Cursor) : Pick × Cursor :=
  if c.envp ≠ 0 then
    let c := {c with argp := 0}
    if word x.mem c.envp ≠ 0 then (.ap (word x.mem c.envp),{c with envp := c.envp + 4,ne := c.ne + 1}) else (.ap 0,c)
  else (.ap 0,c)

def pick (x : Source) (c : Cursor) : Pick × Cursor :=
  let p := pickArg x c
  if p.1.isNull then nextEnv x p.2 else p

inductive Choice where
  | null
  | fault
  | string (src : Nat → Byte)

def choose (x : Source) (c : Cursor) : Choice × Cursor :=
  let p := pick x c
  match p.1 with
  | .ap ap =>
    if ap = 0 then (.null,p.2)
    else if ap = 2^32 - 1 then (.fault,{p.2 with na := p.2.na + 1})
    else (.string (skip ap x.mem),{p.2 with na := p.2.na + 1})
  | .sharg src => (.string src,{p.2 with na := p.2.na + 1})

structure Area where
  nc : Nat
  cc : Nat
  cp : Nat
  bp : Option Nat
  swap : Swap

def Area.flush (a : Area) : Swap :=
  match a.bp with
  | none => a.swap
  | some bp => bdwrite a.swap bp

def Area.release (a : Area) : Swap :=
  match a.bp with
  | none => a.swap
  | some bp => brelse (cancel a.swap bp) bp

/-- A new block where the last one is full, and `E2BIG` where there can be no more. -/
def Area.fill (o : Others) (a : Area) : Option Area :=
  if a.cc = 0 then
    if a.nc ≥ ncargs - 1 then none
    else
      some {a with cc := devBsize,cp := 0,bp := some (a.nc / devBsize),swap := getblk o a.flush (a.nc / devBsize)}
  else some a

def store (data : Nat → Byte) (cp : Nat) (bytes : List Byte) : Nat → Byte :=
  fun i => if cp ≤ i ∧ i < cp + bytes.length then bytes.getD (i - cp) 0 else data i

def Area.copy (a : Area) (bytes : List Byte) : Area where
  nc := a.nc + bytes.length
  cc := a.cc - bytes.length
  cp := a.cp + bytes.length
  bp := a.bp
  swap := match a.bp with
    | none => a.swap
    | some bp => a.swap.onBuf bp fun b => {b with data := store b.data a.cp bytes}

def copyin (o : Others) : Nat → (Nat → Byte) → Area → Except Hang (Area × Nat)
  | 0,_,_ => .error .stuck
  | turns + 1,src,a =>
    match a.fill o with
    | none => .ok (a,e2big)
    | some a =>
      let (bytes,ended) := copystr src a.cc
      if ended then .ok (a.copy bytes,0) else copyin o turns (skip bytes.length src) (a.copy bytes)

/-- The numbers of arguments, what has been copied, the error of the copy and `u_error`. -/
structure Collected where
  na : Nat
  ne : Nat
  area : Area
  error : Nat
  uError : Nat

def collectLoop (o : Others) (x : Source) : Nat → Cursor → Area → Except Hang Collected
  | 0,_,_ => .error .stuck
  | turns + 1,c,a =>
    match choose x c with
    | (.null,c) => .ok ⟨c.na,c.ne,a,0,0⟩
    | (.fault,c) => .ok ⟨c.na,c.ne,a,0,efault⟩
    | (.string src,c) =>
      match copyin o 7 src a with
      | .error panic => .error panic
      | .ok (a,0) => collectLoop o x turns c a
      | .ok (a,error) => .ok ⟨c.na,c.ne,a,error,0⟩

def collect (o : Others) (x : Source) (argp envp : Nat) (swap : Swap) : Except Hang Collected :=
  if argp ≠ 0 then collectLoop o x (ncargs + 2) ⟨0,0,argp,envp⟩ ⟨0,0,0,none,swap⟩ else .ok ⟨0,0,⟨0,0,0,none,swap⟩,0,0⟩

section

def Slot.data (s : Slot) : Nat → Byte :=
  match s.cache with
  | none => s.disk
  | some b => b.data

def Slot.Clean (s : Slot) : Prop := ∀ b, s.cache = some b → b.busy = false ∧ b.delwri = false

def Slot.Kept (s : Slot) : Prop := ∀ b, s.cache = some b → b.busy = false ∧ b.delwri = true

def Slot.Busy (s : Slot) : Prop := ∃ b, s.cache = some b ∧ b.busy = true

variable {s : Slot} {w : Swap} {o : Others} {k : Nat}

theorem Slot.Clean.taken (clean : s.Clean) : s.taken.Clean := by
  unfold Slot.taken
  split
  · exact clean
  split
  · exact clean
  · nofun

theorem Slot.Kept.taken (kept : s.Kept) : s.taken.Kept := by
  unfold Slot.taken
  split
  · exact kept
  split
  · exact kept
  · nofun

theorem Slot.Kept.taken_data (kept : s.Kept) : s.taken.data = s.data := by
  unfold Slot.taken
  split
  · rfl
  next b cached =>
  obtain ⟨idle,dirty⟩ := kept b cached
  simp [idle,dirty,Slot.data,cached]

theorem sleep_slot (w : Swap) (o : Others) (k : Nat) :
    (w.sleep o).slot k = w.slot k ∨ (w.sleep o).slot k = (w.slot k).taken := by
  unfold Swap.sleep
  dsimp only
  split
  · exact .inr rfl
  · exact .inl rfl

theorem Slot.Clean.sleep (clean : (w.slot k).Clean) : ((w.sleep o).slot k).Clean := by
  obtain same | same := sleep_slot w o k <;> rw [same]
  · exact clean
  · exact clean.taken

theorem Slot.Kept.sleep (kept : (w.slot k).Kept) : ((w.sleep o).slot k).Kept := by
  obtain same | same := sleep_slot w o k <;> rw [same]
  · exact kept
  · exact kept.taken

theorem Slot.Kept.sleep_data (kept : (w.slot k).Kept) : ((w.sleep o).slot k).data = (w.slot k).data := by
  obtain same | same := sleep_slot w o k <;> rw [same]
  exact kept.taken_data

@[simp] theorem put_same (w : Swap) (k : Nat) (s : Slot) : (w.put k s).slot k = s := Function.update_self ..

theorem put_other {j : Nat} (other : j ≠ k) : (w.put k s).slot j = w.slot j := Function.update_of_ne other ..

theorem hold_busy (s : Slot) (data : Nat → Byte) : (s.hold data).Busy := by
  unfold Slot.hold Slot.Busy
  split <;> simp

theorem hold_data (s : Slot) : (s.hold s.disk).data = s.data := by
  cases cached : s.cache <;> simp [Slot.hold,Slot.data,cached]

end

section

def Swap.content (w : Swap) (p : Nat) : Byte := (w.slot (p / devBsize)).data (p % devBsize)

/-- What has been copied is in the blocks, of which the last has a buffer that is busy. -/
structure Area.Ready (a : Area) (text : List Byte) : Prop where
  length : a.nc = text.length
  small : a.nc + a.cc ≤ ncargs
  start : a.bp = none → a.nc = 0 ∧ a.cc = 0
  place : ∀ k, a.bp = some k → a.nc = devBsize * k + a.cp ∧ a.cp + a.cc = devBsize ∧ (a.swap.slot k).Busy
  past : ∀ k, devBsize * k < a.nc → a.bp ≠ some k → (a.swap.slot k).Kept
  rest : ∀ k, a.nc ≤ devBsize * k → a.bp ≠ some k → (a.swap.slot k).Clean
  spells : Spells a.swap.content text

variable {a : Area} {text : List Byte} {o : Others}

theorem content_place {k i : Nat} (w : Swap) (inside : i < devBsize) : w.content (devBsize * k + i) = (w.slot k).data i := by
  unfold Swap.content
  rw [Nat.mul_add_div (by decide),Nat.div_eq_of_lt inside,Nat.add_zero,Nat.mul_add_mod,Nat.mod_eq_of_lt inside]

theorem Area.Ready.copy (ready : a.Ready text) {bytes : List Byte} (more : 0 < bytes.length) (fits : bytes.length ≤ a.cc) :
    (a.copy bytes).Ready (text ++ bytes) ∧ 0 < (a.copy bytes).cp := by
  cases held : a.bp with
  | none => have := ready.start held; omega
  | some k =>
    obtain ⟨nc,cc,b,cached,busy⟩ := ready.place k held
    have small := ready.small
    have slot : ∀ j, (a.copy bytes).swap.slot j =
        if j = k then ⟨(a.swap.slot k).disk,some {b with data := store b.data a.cp bytes}⟩ else a.swap.slot j := by
      intro j
      simp only [Area.copy,held,Swap.onBuf,cached,Option.map_some]
      split_ifs with same
      · rw [same,put_same]
      · exact put_other same
    refine ⟨⟨?_,?_,fun absent => ?_,?_,?_,?_,?_⟩,?_⟩
    · simp [Area.copy,ready.length]
    · simp only [Area.copy]; omega
    · simp [Area.copy,held] at absent
    · intro j last
      have same : k = j := by simpa [Area.copy,held] using last
      subst same
      refine ⟨by simp only [Area.copy]; omega,by simp only [Area.copy]; omega,?_⟩
      rw [slot,if_pos rfl]
      exact ⟨_,rfl,busy⟩
    · intro j before other
      have different : j ≠ k := fun same => other (by simp [Area.copy,held,same])
      rw [slot,if_neg different]
      refine ready.past j ?_ (by simp [held,Ne.symm different])
      simp only [Area.copy] at before
      unfold devBsize at *
      omega
    · intro j after other
      have different : j ≠ k := fun same => other (by simp [Area.copy,held,same])
      rw [slot,if_neg different]
      refine ready.rest j ?_ (by simp [held,Ne.symm different])
      simp only [Area.copy] at after
      omega
    · have content : ∀ p, (a.copy bytes).swap.content p =
          if a.nc ≤ p ∧ p < a.nc + bytes.length then bytes.getD (p - a.nc) 0 else a.swap.content p := by
        intro p
        unfold Swap.content
        rw [slot]
        unfold devBsize at *
        by_cases same : p / 1024 = k
        · rw [if_pos same,same]
          have old : (a.swap.slot k).data = b.data := by simp [Slot.data,cached]
          rw [old]
          change store b.data a.cp bytes (p % 1024) = _
          unfold store
          by_cases inside : a.nc ≤ p ∧ p < a.nc + bytes.length
          · rw [if_pos inside,if_pos (by omega)]
            congr 1
            omega
          · rw [if_neg inside,if_neg (by omega)]
        · rw [if_neg same,if_neg (by omega)]
      rw [spells_append]
      constructor
      · refine (spells_congr fun i before => ?_).mp ready.spells
        rw [content,if_neg (by rw [ready.length]; omega)]
      rw [spells_iff]
      intro i inside
      unfold skip
      rw [content,ready.length,if_pos (by omega),Nat.add_sub_cancel_left,List.getD,List.getElem?_eq_getElem inside]
      rfl
    · simp only [Area.copy]; omega

structure Swap.Holds (w : Swap) (text : List Byte) : Prop where
  kept : ∀ k, devBsize * k < text.length → (w.slot k).Kept
  clean : ∀ k, text.length ≤ devBsize * k → (w.slot k).Clean
  spells : Spells w.content text

theorem Area.Ready.flush (ready : a.Ready text) (begun : a.bp ≠ none → 0 < a.cp) : a.flush.Holds text := by
  have length := ready.length
  unfold Area.flush
  cases held : a.bp with
  | none =>
    have empty := (ready.start held).1
    exact ⟨fun k before => by omega,fun k after => ready.rest k (by omega) (by simp [held]),ready.spells⟩
  | some k =>
    obtain ⟨nc,cc,b,cached,-⟩ := ready.place k held
    have begun := begun (by simp [held])
    have slot : ∀ j, (bdwrite a.swap k).slot j =
        if j = k then ⟨(a.swap.slot k).disk,some {b with busy := false,delwri := true}⟩ else a.swap.slot j := by
      intro j
      simp only [bdwrite,Swap.onBuf,cached,Option.map_some]
      split_ifs with same
      · rw [same,put_same]
      · exact put_other same
    refine ⟨fun j before => ?_,fun j after => ?_,(spells_congr fun i inside => ?_).mp ready.spells⟩
    · rw [slot]
      split_ifs with same
      · rintro _ ⟨⟩
        exact ⟨rfl,rfl⟩
      · exact ready.past j (by omega) (by simp [held,Ne.symm same])
    · rw [slot]
      split_ifs with same
      · subst same
        omega
      · exact ready.rest j (by omega) (by simp [held,Ne.symm same])
    · unfold Swap.content
      rw [slot]
      split_ifs with same
      · simp [same,Slot.data,cached]
      · rfl

theorem Swap.Holds.sleep {w : Swap} (holds : w.Holds text) (o : Others) : (w.sleep o).Holds text where
  kept := fun k before => (holds.kept k before).sleep
  clean := fun k after => (holds.clean k after).sleep
  spells := (spells_congr fun i inside => by
    unfold Swap.content
    rw [(holds.kept (i / devBsize) (by unfold devBsize; omega)).sleep_data]).mp holds.spells

theorem Area.Ready.fill (ready : a.Ready text) (o : Others) : a.fill o = none ∧ text.length = ncargs ∨
      ∃ b, a.fill o = some b ∧ b.Ready text ∧ 0 < b.cc ∧ (b = a ∨ a.cc = 0 ∧ b.cc = devBsize ∧ b.nc = a.nc) := by
  unfold Area.fill
  have small := ready.small
  have length := ready.length
  unfold ncargs at *
  split_ifs with full last
  · refine .inl ⟨rfl,?_⟩
    cases held : a.bp with
    | none => have := ready.start held; omega
    | some k =>
      obtain ⟨nc,cc,-⟩ := ready.place k held
      unfold devBsize at *
      omega
  · refine .inr ⟨_,rfl,?_,by simp [devBsize],.inr ⟨full,rfl,rfl⟩⟩
    have at_end : a.nc = devBsize * (a.nc / devBsize) ∧ (a.bp ≠ none → 0 < a.cp) := by
      cases held : a.bp with
      | none => exact ⟨by rw [(ready.start held).1]; rfl,by simp⟩
      | some k =>
        obtain ⟨nc,cc,-⟩ := ready.place k held
        unfold devBsize at *
        exact ⟨by omega,fun _ => by omega⟩
    have holds := (ready.flush at_end.2).sleep o
    have start := at_end.1
    generalize a.nc / devBsize = j at start
    have room : a.nc + devBsize ≤ ncargs := by unfold devBsize ncargs at *; omega
    refine ⟨length,room,nofun,?_,?_,?_,(spells_congr fun i inside => ?_).mp holds.spells⟩
    · rintro _ ⟨⟩
      refine ⟨start,rfl,?_⟩
      unfold getblk
      rw [put_same]
      exact hold_busy _ _
    · intro k before other
      unfold getblk
      rw [put_other (fun same => other (by rw [same]))]
      exact holds.kept k (by rw [← length]; exact before)
    · intro k after other
      unfold getblk
      rw [put_other (fun same => other (by rw [same]))]
      exact holds.clean k (by rw [← length]; exact after)
    · unfold getblk Swap.content
      rw [put_other (by unfold devBsize at *; omega)]
  · exact .inr ⟨a,rfl,ready,by omega,.inl rfl⟩

theorem copyin_spec (turns : Nat) (src : Nat → Byte) (ready : a.Ready text) (begun : a.bp ≠ none → 0 < a.cp)
    (enough : (ncargs - (a.nc + a.cc)) / devBsize + (if a.cc = 0 then 1 else 2) ≤ turns) :
    ∃ b e, copyin o turns src a = .ok (b,e) ∧ (b.bp ≠ none → 0 < b.cp) ∧
    (e = 0 ∧ (∃ t, Terminated 0 t ∧ Spells src t ∧ b.Ready (text ++ t)) ∨
        e = e2big ∧ (∃ part, b.Ready (text ++ part)) ∧ ∀ t, Terminated 0 t → Spells src t →
        ncargs < text.length + t.length) := by
  induction turns generalizing src a text with
  | zero => split at enough <;> simp at enough
  | succ turns ih =>
    unfold copyin copystr
    obtain ⟨filled,full⟩ | ⟨b,filled,ready',room,kind⟩ := ready.fill o <;> simp only [filled]
    · refine ⟨a,e2big,rfl,begun,.inr ⟨rfl,⟨[],by simpa using ready⟩,fun t terminated _ => ?_⟩⟩
      have more := length_pos_of_ne_nil terminated.ne_nil
      omega
    obtain ⟨begins,short,⟨ended,terminated⟩ | ⟨ended,whole,fresh⟩⟩ := piece_spec 0 src b.cc
    · have more := length_pos_of_ne_nil terminated.ne_nil
      obtain ⟨copied,past⟩ := ready'.copy more short
      simp only [ended,if_true]
      exact ⟨_,_,rfl,fun _ => past,.inl ⟨rfl,_,terminated,begins,copied⟩⟩
    obtain ⟨copied,past⟩ := ready'.copy (by omega) short
    simp only [ended,Bool.false_eq_true,if_false]
    have left : (b.copy (piece 0 src b.cc).1).cc = 0 := by simp only [Area.copy]; omega
    have same : (b.copy (piece 0 src b.cc).1).nc = b.nc + b.cc := by simp only [Area.copy]; omega
    obtain ⟨c,e,result,begun',kind'⟩ := ih _ copied (fun _ => past) (by
      simp only [left,same,if_true,Nat.add_zero]
      obtain rfl | ⟨none,size,same⟩ := kind
      · rw [if_neg (by omega)] at enough
        omega
      have limit := ready'.small
      rw [none,if_pos rfl] at enough
      rw [size,same] at *
      unfold devBsize ncargs at *
      omega)
    refine ⟨c,e,result,begun',?_⟩
    obtain ⟨rfl,t,terminated,spells,ready⟩ | ⟨rfl,⟨part,ready⟩,long⟩ := kind'
    · refine .inl ⟨rfl,_,terminated.append _ fresh,spells_append.mpr ⟨begins,spells⟩,?_⟩
      rwa [← append_assoc]
    refine .inr ⟨rfl,⟨_,by rwa [append_assoc] at ready⟩,fun t terminated spells => ?_⟩
    have longer := terminated.longer spells begins fresh
    have rest := long _ (terminated.drop longer) (spells.drop (Nat.le_of_lt longer))
    simp only [length_append,length_drop] at rest
    omega

def Chosen (x : Source) (c : Cursor) : List (List Byte) → Cursor → Prop
  | [],d => c = d
  | t :: ts,d => ∃ src e, choose x c = (.string src,e) ∧ Terminated 0 t ∧ Spells src t ∧ Chosen x e ts d

variable {x : Source}

def Ends (x : Source) (c : Cursor) (bad : Bool) : Prop := (choose x c).1 = if bad then .fault else .null

theorem Ends.not_string {d : Cursor} {bad : Bool} {src : Nat → Byte} (ends : Ends x d bad) : (choose x d).1 ≠ .string src := by
  rw [ends]
  cases bad <;> nofun

theorem Chosen.unique {c d e : Cursor} {ts us : List (List Byte)} {bad worse : Bool} (chosen : Chosen x c ts d)
    (ends : Ends x d bad)
    (again : Chosen x c us e) (stops : Ends x e worse) : ts = us ∧ d = e ∧ bad = worse := by
  induction ts generalizing c us with
  | nil =>
    subst chosen
    cases us with
    | nil =>
      subst again
      unfold Ends at ends stops
      rw [ends] at stops
      cases bad <;> cases worse <;> simp_all
    | cons u us =>
      obtain ⟨src,c',first,-⟩ := again
      exact absurd (by rw [first]) ends.not_string
  | cons t ts ih =>
    obtain ⟨src,c',first,terminated,spells,chosen⟩ := chosen
    cases us with
    | nil =>
      subst again
      exact absurd (by rw [first]) stops.not_string
    | cons u us =>
      obtain ⟨src',c'',first',terminated',spells',again⟩ := again
      rw [first] at first'
      obtain ⟨⟨⟩,rfl⟩ := Prod.mk.inj first'
      obtain ⟨rfl,rest⟩ := ih chosen again
      exact ⟨by rw [terminated.unique spells terminated' spells'],rest⟩

theorem collectLoop_spec (turns : Nat) {c : Cursor} (ready : a.Ready text) (begun : a.bp ≠ none → 0 < a.cp)
    (enough : ncargs + 2 ≤ text.length + turns) :
    ∃ r, collectLoop o x turns c a = .ok r ∧ (r.area.bp ≠ none → 0 < r.area.cp) ∧
      ((∃ ts d bad, Chosen x c ts d ∧ Ends x d bad ∧ r.area.Ready (text ++ ts.flatten) ∧
          r.error = 0 ∧ r.uError = (if bad then efault else 0) ∧ r.na = (choose x d).2.na ∧ r.ne = (choose x d).2.ne) ∨
        (∃ part, r.area.Ready (text ++ part)) ∧ r.error = e2big ∧
          ∀ ts d bad, Chosen x c ts d → Ends x d bad → ncargs < text.length + ts.flatten.length) := by
  induction turns generalizing c a text with
  | zero =>
    have small := ready.small
    have length := ready.length
    omega
  | succ turns ih =>
    unfold collectLoop
    split
    · next d chosen =>
      exact ⟨_,rfl,begun,.inl ⟨[],c,false,rfl,by rw [Ends,chosen]; rfl,by simpa using ready,rfl,rfl,
        by rw [chosen],by rw [chosen]⟩⟩
    · next d chosen =>
      exact ⟨_,rfl,begun,.inl ⟨[],c,true,rfl,by rw [Ends,chosen]; rfl,by simpa using ready,rfl,rfl,
        by rw [chosen],by rw [chosen]⟩⟩
    next src d chosen =>
    obtain ⟨b,e,copied,begun',⟨rfl,t,terminated,spells,ready'⟩ | ⟨rfl,part,long⟩⟩ := copyin_spec (o := o) 7 src ready begun (by
      have small := ready.small
      unfold ncargs devBsize at *
      split <;> omega)
    · have more := length_pos_of_ne_nil terminated.ne_nil
      obtain ⟨r,result,begun'',rest⟩ := ih (c := d) ready' begun' (by rw [length_append]; omega)
      simp only [copied]
      refine ⟨r,result,begun'',?_⟩
      obtain ⟨ts,last,bad,chosen',ends,ready'',result⟩ | ⟨⟨part,ready''⟩,error,long⟩ := rest
      · refine .inl ⟨t :: ts,last,bad,⟨src,d,chosen,terminated,spells,chosen'⟩,ends,?_,result⟩
        rwa [flatten_cons,← append_assoc]
      refine .inr ⟨⟨t ++ part,by rwa [← append_assoc]⟩,error,?_⟩
      rintro (_ | ⟨u,us⟩) last bad chosen' ends
      · subst chosen'
        exact absurd (by rw [chosen]) ends.not_string
      obtain ⟨src',d',chosen'',terminated',spells',chosen'⟩ := chosen'
      rw [chosen] at chosen''
      obtain ⟨⟨⟩,rfl⟩ := Prod.mk.inj chosen''
      rw [terminated'.unique spells' terminated spells]
      have rest := long us last bad chosen' ends
      simp only [length_append,flatten_cons] at rest ⊢
      omega
    · simp only [copied,e2big]
      refine ⟨_,rfl,begun',.inr ⟨part,rfl,?_⟩⟩
      rintro (_ | ⟨u,us⟩) last bad chosen' ends
      · subst chosen'
        exact absurd (by rw [chosen]) ends.not_string
      obtain ⟨src',d',chosen'',terminated',spells',chosen'⟩ := chosen'
      rw [chosen] at chosen''
      obtain ⟨⟨⟩,rfl⟩ := Prod.mk.inj chosen''
      have rest := long u terminated' spells'
      simp only [length_append,flatten_cons]
      omega

/-- What the pointers of a call come to: the strings, their number, that of the environment's,
and whether a pointer of -1 ends them. -/
structure Gathered (x : Source) (argp envp : Nat) (ts : List (List Byte)) (na ne : Nat) (bad : Bool) : Prop where
  none : argp = 0 → ts = [] ∧ na = 0 ∧ ne = 0 ∧ bad = false
  all : argp ≠ 0 → ∃ d, Chosen x ⟨0,0,argp,envp⟩ ts d ∧ Ends x d bad ∧ na = (choose x d).2.na ∧ ne = (choose x d).2.ne

theorem Gathered.unique {argp envp na ne ma me : Nat} {ts us : List (List Byte)} {bad worse : Bool}
    (gathered : Gathered x argp envp ts na ne bad) (again : Gathered x argp envp us ma me worse) :
    ts = us ∧ na = ma ∧ ne = me ∧ bad = worse := by
  by_cases absent : argp = 0
  · obtain ⟨rfl,rfl,rfl,rfl⟩ := gathered.none absent
    obtain ⟨rfl,rfl,rfl,rfl⟩ := again.none absent
    exact ⟨rfl,rfl,rfl,rfl⟩
  obtain ⟨d,chosen,ends,rfl,rfl⟩ := gathered.all absent
  obtain ⟨e,chosen',ends',rfl,rfl⟩ := again.all absent
  obtain ⟨rfl,rfl,rfl⟩ := chosen.unique ends chosen' ends'
  exact ⟨rfl,rfl,rfl,rfl⟩

theorem empty_ready {w : Swap} (clean : ∀ k, (w.slot k).Clean) : (Area.mk 0 0 0 none w).Ready [] :=
  ⟨rfl,by simp,by simp,nofun,nofun,fun k _ _ => clean k,trivial⟩

theorem collect_spec {w : Swap} (o : Others) (x : Source) (argp envp : Nat) (clean : ∀ k, (w.slot k).Clean) :
    ∃ r, collect o x argp envp w = .ok r ∧ (r.area.bp ≠ none → 0 < r.area.cp) ∧
      ((∃ ts bad, Gathered x argp envp ts r.na r.ne bad ∧ r.area.Ready ts.flatten ∧ r.error = 0 ∧
      r.uError = if bad then efault else 0) ∨
        (∃ part, r.area.Ready part) ∧ r.error = e2big ∧ ∀ ts na ne bad, Gathered x argp envp ts na ne bad →
        ncargs < ts.flatten.length) := by
  unfold collect
  split_ifs with present
  · obtain ⟨r,result,begun,⟨ts,d,bad,chosen,ends,ready,error,uError,na,ne⟩ | ⟨part,error,long⟩⟩ :=
      collectLoop_spec (o := o) (x := x) (ncargs + 2) (c := ⟨0,0,argp,envp⟩) (empty_ready clean) nofun (by simp)
    · exact ⟨r,result,begun,.inl ⟨ts,bad,⟨fun absent => absurd absent present,fun _ => ⟨d,chosen,ends,na,ne⟩⟩,
        ready,error,uError⟩⟩
    refine ⟨r,result,begun,.inr ⟨part,error,fun ts na ne bad gathered => ?_⟩⟩
    obtain ⟨d,chosen,ends,-⟩ := gathered.all present
    have rest := long ts d bad chosen ends
    rwa [length_nil,Nat.zero_add] at rest
  · exact ⟨_,rfl,nofun,.inl ⟨[],false,⟨fun _ => ⟨rfl,rfl,rfl,rfl⟩,fun absurdly => absurd absurdly present⟩,
      empty_ready clean,rfl,rfl⟩⟩

theorem Area.Ready.release (ready : a.Ready text) {k : Nat} (after : text.length ≤ devBsize * k) : (a.release.slot k).Clean := by
  have length := ready.length
  unfold Area.release
  cases held : a.bp with
  | none => exact ready.rest k (by omega) (by simp [held])
  | some j =>
    unfold brelse cancel Swap.onBuf
    by_cases same : k = j
    · rw [same,put_same,put_same]
      intro b cached
      simp only [Option.map_map,Option.map_eq_some_iff] at cached
      obtain ⟨c,-,rfl⟩ := cached
      exact ⟨rfl,rfl⟩
    · dsimp only
      rw [put_other same,put_other same]
      exact ready.rest k (by omega) (by simp [held,Ne.symm same])

end

end Retrobsd.ExecArguments

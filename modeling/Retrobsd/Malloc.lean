import Retrobsd.Lib.Copying

/-! The storage allocator of the C library, `malloc.c`. The memory is one of words, a
pointer in it is the address of a byte with the busy bit in bit 0, and `p->ptr` leads to
the word `target`. -/
namespace Retrobsd.Malloc
open Function

abbrev Memory := Nat → Nat

def space : Nat := 2^30
def WORD : Nat := 4
def BLOCK : Nat := 1024
def GRANULE : Nat := 0

def pointer (a : Nat) : Nat := 4 * a
def target (w : Nat) : Nat := w / 4
def testbusy (w : Nat) : Bool := w % 2 == 1
def setbusy (w : Nat) : Nat := w / 2 * 2 + 1
def clearbusy (w : Nat) : Nat := w / 2 * 2

/-- The static variables, and the break. `brk` is a word, as all that is asked for are. -/
structure State where
  memory : Memory
  allocs : Nat
  allocp : Nat
  alloct : Nat
  allocx : Nat
  brk : Nat

/-- `sbrk` for one call after the other of a search: how far behind the break the next
region begins, or that there is none. -/
abbrev Grants := Nat → Option Nat

inductive Fault where
  | spinning
  | refused
deriving DecidableEq

def coalesce : Nat → Memory → Nat → Except Fault Memory
  | 0,_,_ => .error .spinning
  | fuel + 1,m,p =>
    let q := target (m p)
    if testbusy (m q) then .ok m else coalesce fuel (update m p (m q)) p

def fits (p nw q : Nat) : Bool :=
  let next := (p + nw) % space
  decide (q ≥ next ∧ next ≥ p)

/-- How a search through the arena ends: at a block, at the top for the second time, or
where the list is broken. -/
inductive Search where
  | found (m : Memory) (p : Nat)
  | around (m : Memory)
  | broken (m : Memory)

def search (fuel allocs alloct nw : Nat) : Nat → Memory → Nat → Nat → Except Fault Search
  | 0,_,_,_ => .error .spinning
  | turns + 1,m,p,temp =>
    match if testbusy (m p) then .ok m else coalesce fuel m p with
    | .error e => .error e
    | .ok m' =>
      if !testbusy (m p) && fits p nw (target (m' p)) then .ok (.found m' p)
      else
        let q := p
        let p := target (clearbusy (m' p))
        if p > q then search fuel allocs alloct nw turns m' p temp
        else if q ≠ alloct ∨ p ≠ allocs then .ok (.broken m')
        else if temp + 1 > 1 then .ok (.around m')
        else search fuel allocs alloct nw turns m' p (temp + 1)

def State.take (s : State) (p nw : Nat) : State :=
  let q := target (s.memory p)
  let allocp := p + nw
  let s := {s with allocp}
  let s := if q > allocp then
      {s with allocx := s.memory allocp,memory := update s.memory allocp (s.memory p)}
    else s
  {s with memory := update s.memory p (setbusy (pointer allocp))}

def request (q nw : Nat) : Nat := (((4 * q + WORD * nw + BLOCK - 1) % 2^32 / BLOCK * BLOCK + 2^32 - 4 * q) % 2^32) / WORD

def State.extend (s : State) (q temp : Nat) : State :=
  let top := q + temp - 1
  let link := if q ≠ s.alloct + 1 then setbusy (pointer q) else pointer q
  let m := update s.memory s.alloct link
  let m := update m q (pointer top)
  let m := update m top (setbusy (pointer s.allocs))
  {s with memory := m,alloct := top,brk := q + temp}

structure Result where
  state : State
  block : Option Nat
  regions : List (Nat × Nat)

/-- The outer loop of `malloc`; `k` calls of `sbrk` have been made. -/
def loop (fuel nw : Nat) (grants : Grants) : Nat → Nat → State → Nat → List (Nat × Nat) → Except Fault Result
  | 0,_,_,_,_ => .error .spinning
  | turns + 1,k,s,p,regions =>
    match search fuel s.allocs s.alloct nw fuel s.memory p 0 with
    | .error e => .error e
    | .ok (.found m p) => .ok ⟨{s with memory := m}.take p nw,some (p + 1),regions⟩
    | .ok (.broken m) => .ok ⟨{s with memory := m},none,regions⟩
    | .ok (.around m) =>
      let s := {s with memory := m}
      let temp := request s.brk nw
      if (s.brk + temp + GRANULE) % space < s.brk then .ok ⟨s,none,regions⟩
      else match grants k with
        | none => .ok ⟨s,none,regions⟩
        | some gap =>
          let q := s.brk + gap
          if q + temp > space then .ok ⟨s,none,regions⟩
          else loop fuel nw grants turns (k + 1) (s.extend q temp) s.allocs ((q,temp) :: regions)

def State.begin (s : State) : State :=
  if s.memory s.allocs = 0 then
    let m := update s.memory s.allocs (setbusy (pointer (s.allocs + 1)))
    let m := update m (s.allocs + 1) (setbusy (pointer s.allocs))
    {s with memory := m,alloct := s.allocs + 1,allocp := s.allocs}
  else s

def words (nbytes : Nat) : Nat := (nbytes + WORD + WORD - 1) % 2^32 / WORD

def malloc (fuel : Nat) (s : State) (nbytes : Nat) (grants : Grants) : Except Fault Result :=
  if nbytes = 0 then .ok ⟨s,none,[]⟩
  else
    let s := s.begin
    loop fuel (words nbytes) grants fuel 0 s s.allocp []

def State.free (s : State) (ap : Nat) : State :=
  let p := ap - 1
  {s with allocp := p,memory := update s.memory p (clearbusy (s.memory p))}

def State.move (s : State) (p q nbytes onw : Nat) : State :=
  let nw := (nbytes + WORD - 1) % 2^32 / WORD
  let m := Lib.Copying.copyUp s.memory p q (if nw < onw then nw else onw)
  {s with memory := if q < p ∧ q + nw ≥ p then update m (q + (q + nw - p)) s.allocx else m}

def realloc (fuel : Nat) (s : State) (p nbytes : Nat) (grants : Grants) : Except Fault Result :=
  let s := if testbusy (s.memory (p - 1)) then s.free p else s
  let onw := target (s.memory (p - 1)) - p
  match malloc fuel s nbytes grants with
  | .error e => .error e
  | .ok ⟨s,none,regions⟩ => .ok ⟨s,none,regions⟩
  | .ok ⟨s,some q,regions⟩ => .ok ⟨if q = p then s else s.move p q nbytes onw,some q,regions⟩

/-- The loop of `allock`, whose `x` counts the headers at `allocp`. -/
def allockLoop (m : Memory) (allocp : Nat) : Nat → Nat → Nat → Except Fault Bool
  | 0,_,_ => .error .spinning
  | turns + 1,p,x =>
    if target (clearbusy (m p)) > p then
      allockLoop m allocp turns (target (clearbusy (m p))) (if p = allocp then x + 1 else x)
    else .ok (x == 1 || p == allocp)

def State.allock (s : State) : Bool :=
  match allockLoop s.memory s.allocp space s.allocs 0 with
  | .error _ => false
  | .ok b => b

def turns : Nat := 2^32

/-- A block that a caller has: the bytes that were asked for, and the words stored into it
that it is to have. -/
structure Block where
  nbytes : Nat
  data : Nat → Option Nat

structure World where
  state : State
  live : Nat → Option Block
  granted : List (Nat × Nat)

inductive Op where
  | malloc (nbytes : Nat) (grants : Grants)
  | free (ap : Nat)
  | realloc (vp nbytes : Nat) (grants : Grants)
  | store (ap i v : Nat)

def Block.resize (b : Block) (nbytes : Nat) : Block := ⟨nbytes,fun i => if 4 * i < min b.nbytes nbytes then b.data i else none⟩

def World.returned (w : World) (live : Nat → Option Block) (new : Block) (r : Result) : World where
  state := r.state
  live := match r.block with
    | none => live
    | some p => update live p (some new)
  granted := r.regions ++ w.granted

def step (w : World) : Op → Except Fault World
  | .malloc nbytes grants =>
    if nbytes ≥ 2^30 then .error .refused
    else (malloc turns w.state nbytes grants).map (w.returned w.live ⟨nbytes,fun _ => none⟩)
  | .free ap => match w.live ap with
    | none => .error .refused
    | some _ => .ok {w with state := w.state.free ap,live := update w.live ap none}
  | .realloc vp nbytes grants => match w.live vp with
    | none => .error .refused
    | some b =>
      if nbytes ≥ 2^30 then .error .refused
      else (realloc turns w.state vp nbytes grants).map (w.returned (update w.live vp none) (b.resize nbytes))
  | .store ap i v => match w.live ap with
    | none => .error .refused
    | some b =>
      if 4 * i ≥ b.nbytes then .error .refused
      else .ok {w with
        state := {w.state with memory := update w.state.memory (ap + i) v}
        live := update w.live ap (some {b with data := update b.data i (some v)})}

end Retrobsd.Malloc

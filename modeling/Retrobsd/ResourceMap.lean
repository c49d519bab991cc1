import Retrobsd.Lib.Indices

/-! The resource map routines of `subr_rmap.c` over the array of map entries.
Every access to an entry goes through `read` or `write`, which fault outside the
array, and the diagnostic panics are faults as well. Loops carry the number of
array slots as fuel: each turn accesses a higher slot, so that running out means
an access past the last one. -/
namespace Retrobsd.ResourceMap

structure Mapent where
  mSize : Nat
  mAddr : Nat
deriving DecidableEq

inductive Fault where
  | panic (message : String)
  | outside (slot : Nat)
  | null
deriving DecidableEq

/-- `mLimit` is the slot that the pointer `m_limit` addresses. -/
structure Map where
  mMap : List Mapent
  mLimit : Nat
  mName : String
deriving DecidableEq

def sizeT (n : Nat) : Nat := n % 2^32

def read (mp : Map) (i : Nat) : Except Fault Mapent :=
  match mp.mMap[i]? with
  | some e => .ok e
  | none => .error (.outside i)

def write (mp : Map) (i : Nat) (e : Mapent) : Except Fault Map :=
  if i < mp.mMap.length then .ok {mp with mMap := mp.mMap.set i e} else .error (.outside i)

/-- `for (ep = bp;; ++ep) { *ep = *++bp; if (!bp->m_size) break; }` -/
def shiftDown : Nat → Map → Nat → Nat → Except Fault Map
  | 0,_,_,bp => .error (.outside (bp + 1))
  | fuel + 1,mp,ep,bp => do
    let e ← read mp (bp + 1)
    let mp ← write mp ep e
    if e.mSize = 0 then return mp
    shiftDown fuel mp (ep + 1) (bp + 1)

def mallocLoop (size : Nat) : Nat → Map → Nat → Except Fault (Map × Nat)
  | 0,_,bp => .error (.outside bp)
  | fuel + 1,mp,bp => do
    let e ← read mp bp
    if e.mSize = 0 then return (mp,0)
    if e.mSize ≥ size then
      let left := e.mSize - size
      let mp ← write mp bp ⟨left,e.mAddr⟩
      if left ≠ 0 then
        let mp ← write mp bp ⟨left,sizeT (e.mAddr + size)⟩
        return (mp,e.mAddr)
      else
        let mp ← shiftDown mp.mMap.length mp bp bp
        return (mp,e.mAddr)
    else mallocLoop size fuel mp (bp + 1)

def malloc (mp : Map) (size : Nat) : Except Fault (Map × Nat) :=
  if size = 0 then .error (.panic "malloc: size = 0")
  else mallocLoop size mp.mMap.length mp 0

def skip (addr : Nat) : Nat → Map → Nat → Except Fault Nat
  | 0,_,bp => .error (.outside bp)
  | fuel + 1,mp,bp => do
    let e ← read mp bp
    if e.mSize ≠ 0 ∧ e.mAddr ≤ addr then skip addr fuel mp (bp + 1) else return bp

def closeGap : Nat → Map → Nat → Nat → Except Fault Map
  | 0,_,_,bp => .error (.outside (bp + 1))
  | fuel + 1,mp,ep,bp => do
    let e ← read mp (bp + 1)
    let mp ← write mp (ep + 1) e
    if e.mSize ≠ 0 then closeGap fuel mp (ep + 1) (bp + 1) else return mp

def findEnd : Nat → Map → Nat → Except Fault Nat
  | 0,_,bp => .error (.outside bp)
  | fuel + 1,mp,bp => do
    let e ← read mp bp
    if e.mSize ≠ 0 then findEnd fuel mp (bp + 1) else return bp

/-- `for (ep = bp - 1; ep >= start; *bp-- = *ep--);` with `count` entries to go. -/
def shiftUp (start : Nat) : Nat → Map → Except Fault Map
  | 0,mp => .ok mp
  | count + 1,mp => do
    let e ← read mp (start + count)
    let mp ← write mp (start + count + 1) e
    shiftUp start count mp

def overflow (mp : Map) (size addr : Nat) : String := mp.mName ++ ": overflow, lost " ++ toString size ++ " clicks at 0" ++
    String.ofList (Nat.toDigits 8 addr) ++ "\n"

/-- `bp != mp->m_map && ep->m_addr + ep->m_size >= addr` with `ep = bp - 1` -/
def abutsLeft (mp : Map) (addr bp : Nat) : Except Fault Bool :=
  if bp = 0 then .ok false else do
    let e ← read mp (bp - 1)
    return decide (sizeT (e.mAddr + e.mSize) ≥ addr)

def abutsRight (mp : Map) (size addr bp : Nat) : Except Fault Bool := do
  let b ← read mp bp
  return decide (b.mSize ≠ 0 ∧ sizeT (addr + size) ≥ b.mAddr)

/-- Add into the piece on the left, and compress the piece on the right in also
when the combined piece abuts it. -/
def joinLeft (mp : Map) (size addr bp : Nat) : Except Fault Map := do
  let ep := bp - 1
  let e ← read mp ep
  if sizeT (e.mAddr + e.mSize) > addr then throw (.panic "mfree overlap #1")
  let mp ← write mp ep ⟨sizeT (e.mSize + size),e.mAddr⟩
  if ← abutsRight mp size addr bp then
    let b ← read mp bp
    if sizeT (addr + size) > b.mAddr then throw (.panic "mfree overlap #2")
    let mp ← write mp ep ⟨sizeT (sizeT (e.mSize + size) + b.mSize),e.mAddr⟩
    closeGap mp.mMap.length mp ep bp
  else return mp

def joinRight (mp : Map) (size addr bp : Nat) : Except Fault Map := do
  let b ← read mp bp
  if sizeT (addr + size) > b.mAddr then throw (.panic "mfree overlap #3")
  write mp bp ⟨sizeT (b.mSize + size),addr⟩

def addEntry (mp : Map) (size addr start : Nat) : Except Fault (Map × List String) := do
  let bp ← findEnd mp.mMap.length mp start
  if bp + 1 > mp.mLimit then return (mp,[overflow mp size addr])
  let mp ← shiftUp start (bp + 1 - start) mp
  let mp ← write mp start ⟨size,addr⟩
  return (mp,[])

def mfree (mp : Map) (size addr : Nat) : Except Fault (Map × List String) :=
  if size = 0 then .ok (mp,[])
  else if addr = 0 then .error (.panic "mfree: addr = 0")
  else do
    let bp ← skip addr mp.mMap.length mp 0
    if ← abutsLeft mp addr bp then
      let mp ← joinLeft mp size addr bp
      return (mp,[])
    else if ← abutsRight mp size addr bp then
      let mp ← joinRight mp size addr bp
      return (mp,[])
    else addEntry mp size addr bp

/-- The locals of `malloc3` while it looks for room: the entry chosen for each of
the three segments and the first entry that was used up. -/
structure Search where
  map : Map
  madd : Fin 3 → Option Nat
  remap : Option Nat
  found : Nat

/-- One turn of the inner loop; `true` is the jump to `resolve`. -/
def tryEntry (sizes : Fin 3 → Nat) (bp : Nat) (next : Fin 3) (s : Search) : Except Fault (Search × Bool) :=
  if s.madd next ≠ none then .ok (s,false) else do
    let e ← read s.map bp
    if sizes next ≤ e.mSize then
      let left := e.mSize - sizes next
      let map ← write s.map bp ⟨left,e.mAddr⟩
      let remap := if left = 0 ∧ s.remap = none then some bp else s.remap
      let s : Search := ⟨map,Function.update s.madd next (some bp),remap,s.found + 1⟩
      return (s,decide (s.found = 3))
    else return (s,false)

def tryEntries (sizes : Fin 3 → Nat) (bp : Nat) : List (Fin 3) → Search → Except Fault (Search × Bool)
  | [],s => .ok (s,false)
  | next :: rest,s => do
    let (s,resolve) ← tryEntry sizes bp next s
    if resolve then return (s,true)
    tryEntries sizes bp rest s

def search (sizes : Fin 3 → Nat) : Nat → Search → Nat → Except Fault (Search × Bool)
  | 0,_,bp => .error (.outside bp)
  | fuel + 1,s,bp => do
    let e ← read s.map bp
    if e.mSize = 0 then return (s,false)
    let (s,resolve) ← tryEntries sizes bp [0,1,2] s
    if resolve then return (s,true)
    search sizes fuel s (bp + 1)

def restore (sizes : Fin 3 → Nat) (madd : Fin 3 → Option Nat) : List (Fin 3) → Map → Except Fault Map
  | [],mp => .ok mp
  | next :: rest,mp => match madd next with
    | none => restore sizes madd rest mp
    | some bp => do
      let e ← read mp bp
      let mp ← write mp bp ⟨sizeT (e.mSize + sizes next),e.mAddr⟩
      restore sizes madd rest mp

def resolve (sizes : Fin 3 → Nat) (madd : Fin 3 → Option Nat) : List (Fin 3) → Map → Except Fault (Map × List Nat)
  | [],mp => .ok (mp,[])
  | next :: rest,mp => match madd next with
    | none => .error .null
    | some bp => do
      let e ← read mp bp
      let mp ← write mp bp ⟨e.mSize,sizeT (e.mAddr + sizes next)⟩
      let (mp,addrs) ← resolve sizes madd rest mp
      return (mp,e.mAddr :: addrs)

def compress : Nat → Map → Nat → Nat → Except Fault Map
  | 0,_,_,bp => .error (.outside bp)
  | fuel + 1,mp,remap,bp => do
    let e ← read mp bp
    if e.mSize ≠ 0 ∨ e.mAddr = 0 then
      let mp ← write mp remap e
      if e.mAddr = 0 then return mp
      compress fuel mp (remap + 1) (bp + 1)
    else compress fuel mp remap (bp + 1)

/-- The three addresses, or `none` where the source returns 0. -/
def malloc3 (mp : Map) (dSize sSize uSize : Nat) : Except Fault (Map × Option (List Nat)) := do
  let sizes : Fin 3 → Nat := ![dSize,sSize,uSize]
  let (s,resolved) ← search sizes mp.mMap.length ⟨mp,fun _ => none,none,0⟩ 0
  if resolved then
    let (mp,addrs) ← resolve sizes s.madd [0,1,2] s.map
    match s.remap with
    | none => return (mp,some addrs)
    | some remap =>
      let mp ← compress mp.mMap.length mp remap (remap + 1)
      return (mp,some addrs)
  else
    let mp ← restore sizes s.madd [0,1,2] s.map
    return (mp,none)

end Retrobsd.ResourceMap

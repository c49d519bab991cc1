import Retrobsd.Lib.Copying

/-! The pathname that `namei` of `ufs_namei.c` translates, in its buffer of
`MAXPATHLEN` bytes, and the `bcopy` of `machdep.c` that shifts the rest of it when a
symbolic link is met. What is done with directories and inodes between two components
is a parameter. -/
namespace Retrobsd.Symlinks

abbrev Memory := Nat → UInt8

def maxpathlen : Nat := 256
def maxsymlinks : Nat := 8
def maxnamlen : Nat := 63
def slash : UInt8 := 47

def copyBytes (m : Memory) (src dst : Nat) : Nat → Memory
  | 0 => m
  | n + 1 => copyBytes (Function.update m dst (m src)) (src + 1) (dst + 1) n

def copyWord (m : Memory) (src dst : Nat) : Memory := fun a => if dst ≤ a ∧ a < dst + 4 then m (src + (a - dst)) else m a

def copyWords (m : Memory) (src dst : Nat) : Nat → Memory
  | 0 => m
  | n + 1 => copyWords (copyWord m src dst) (src + 4) (dst + 4) n

def copyQuads (m : Memory) (src dst : Nat) : Nat → Memory
  | 0 => m
  | n + 1 => copyQuads (copyWords m src dst 4) (src + 16) (dst + 16) n

def bcopy (m : Memory) (src dst nbytes : Nat) : Memory :=
  if nbytes ≥ 16 ∧ src % 4 = 0 ∧ dst % 4 = 0 then
    let quads := nbytes / 16
    let words := nbytes % 16 / 4
    let m := copyQuads m src dst quads
    let m := copyWords m (src + 16 * quads) (dst + 16 * quads) words
    copyBytes m (src + 16 * quads + 4 * words) (dst + 16 * quads + 4 * words) (nbytes % 4)
  else copyBytes m src dst nbytes

/-- `bcopy` out of a buffer, which the name does not overlap. -/
def copyIn (m : Memory) (dst n : Nat) (block : Nat → UInt8) : Memory :=
    fun a => if dst ≤ a ∧ a < dst + n then block (a - dst) else m a

inductive Errno where
  | enoent
  | enametoolong
  | einval
  | eloop
  | enotdir
  | eacces
  | eio
deriving DecidableEq

/-- The size of a symbolic link, which a sound inode keeps below 2^31, and its first block, if it can be read. -/
structure Link where
  size : Nat
  block : Option (Nat → UInt8)

/-- How the search for a component ends: with the answer of `namei`, at `dirloop2` for the directory that a file
system is mounted on, or at `haveino` with inode and directory. -/
inductive Outcome (σ ι ρ : Type) where
  | done (r : ρ)
  | mounted (sys : σ) (dp : ι)
  | haveino (sys : σ) (dp pdp : ι)

/-- What `namei` does with inodes. Only `..` leads out of a mounted file system. -/
structure Kernel (σ ι ρ : Type) where
  path : Nat
  follow : Bool
  delete : Bool
  rootdir : σ → ι
  cdir : σ → ι
  hold : σ → ι → σ
  lock : σ → ι → σ
  irele : σ → ι → σ
  iput : σ → ι → σ
  enter : σ → ι → Option Errno
  search : σ → ι → List UInt8 → Bool → Outcome σ ι ρ
  dotdot : ∀ {sys dp name last sys' dp'}, search sys dp name last = .mounted sys' dp' → name = [46,46]
  link : σ → ι → Option Link
  degenerate : σ → ι → ρ
  final : σ → ι → ι → ρ
  retNULL : σ → Errno → ρ
  bad : σ → ι → Errno → ρ
  bad2 : σ → ι → ι → Errno → ρ

/-- How a translation ends. A name without an end in the buffer is read past it. -/
inductive End (ρ : Type) where
  | answer (r : ρ)
  | outside
deriving DecidableEq

/-- The variables of `namei`; `searching` tells `dirloop2` from `dirloop`. -/
structure Walk (σ ι : Type) where
  sys : σ
  memory : Memory
  cp : Nat
  dp : ι
  nlink : Nat
  searching : Bool

inductive Stop where
  | outside
  | failed (e : Errno)

def component (delete : Bool) : Nat → List UInt8 → Except Stop (List UInt8 × List UInt8)
  | _,[] => .error .outside
  | left,c :: cs =>
    if c = 0 ∨ c = slash then .ok ([],c :: cs)
    else match left with
      | 0 => .error (.failed .enametoolong)
      | left + 1 =>
        if c ≥ 128 ∧ (c = slash + 128 ∨ delete = false) then .error (.failed .einval)
        else match component delete left cs with
          | .error e => .error e
          | .ok (name,rest) => .ok (c :: name,rest)

def slashes : List UInt8 → Option Nat
  | [] => none
  | c :: cs => if c = slash then (slashes cs).map (· + 1) else some 0

def strlen : List UInt8 → Option Nat
  | [] => none
  | c :: cs => if c = 0 then some 0 else (strlen cs).map (· + 1)

section
variable {σ ι ρ : Type} (k : Kernel σ ι ρ)

def rest (m : Memory) (cp : Nat) : List UInt8 := (List.range (k.path + maxpathlen - cp)).map fun i => m (cp + i)

def massage (m : Memory) (cp size : Nat) (block : Nat → UInt8) (pathlen : Nat) : Memory :=
  copyIn (bcopy m cp (k.path + size) pathlen) k.path size block

def begin (w : Walk σ ι) (absolute relative : σ → σ × ι) : Except (End ρ) (Walk σ ι) :=
  match rest k w.memory w.cp with
  | [] => .error .outside
  | c :: cs =>
    if c = slash then match slashes (c :: cs) with
      | none => .error .outside
      | some n =>
        let (sys,dp) := absolute w.sys
        .ok {w with sys,cp := w.cp + n,dp,searching := false}
    else
      let (sys,dp) := relative w.sys
      .ok {w with sys,dp,searching := false}

def expand (w : Walk σ ι) (pdp : ι) (l : Link) : Except (End ρ) (Walk σ ι) :=
  match strlen (rest k w.memory w.cp) with
  | none => .error .outside
  | some len =>
    let pathlen := len + 1
    if l.size + pathlen ≥ maxpathlen - 1 then .error (.answer (k.bad2 w.sys w.dp pdp .enametoolong))
    else if w.nlink + 1 > maxsymlinks then .error (.answer (k.bad2 w.sys w.dp pdp .eloop))
    else match l.block with
      | none => .error (.answer (k.bad2 w.sys w.dp pdp .eio))
      | some block =>
        begin k {w with
          sys := k.iput w.sys w.dp
          memory := massage k w.memory w.cp l.size block pathlen
          cp := k.path
          nlink := w.nlink + 1}
          (fun sys => let sys := k.irele sys pdp; (k.hold (k.lock sys (k.rootdir sys)) (k.rootdir sys),k.rootdir sys))
          (fun sys => (k.lock sys pdp,pdp))

def linked (w : Walk σ ι) : Option Link :=
  match k.link w.sys w.dp with
  | none => none
  | some l => if k.follow = true ∨ (rest k w.memory w.cp).head? = some slash then some l else none

/-- After `haveino`: the link, the next component, or the answer. -/
def haveino (w : Walk σ ι) (pdp : ι) : Except (End ρ) (Walk σ ι) :=
  match linked k w with
  | some l => expand k w pdp l
  | none => match rest k w.memory w.cp with
    | [] => .error .outside
    | c :: cs =>
      if c = slash then match slashes (c :: cs) with
        | none => .error .outside
        | some n => .ok {w with sys := k.irele w.sys pdp,cp := w.cp + n,searching := false}
      else .error (.answer (k.final w.sys w.dp pdp))

/-- The search for the next component: what follows is `haveino`, or the same again
where the file system is mounted. -/
def dirloop2 (w : Walk σ ι) : Except (End ρ) (Walk σ ι × Option ι) :=
  match component k.delete maxnamlen (rest k w.memory w.cp) with
  | .error .outside => .error .outside
  | .error (.failed e) => .error (.answer (k.bad w.sys w.dp e))
  | .ok (name,behind) =>
    if name = [] then .error (.answer (k.degenerate w.sys w.dp))
    else match k.search w.sys w.dp name (behind.head? = some 0) with
      | .done r => .error (.answer r)
      | .mounted sys dp => .ok ({w with sys,cp := w.cp + name.length - 2,dp},none)
      | .haveino sys dp pdp => .ok ({w with sys,cp := w.cp + name.length,dp},some pdp)

def step (w : Walk σ ι) : Except (End ρ) (Walk σ ι) :=
  if w.searching then
    match dirloop2 k w with
    | .error e => .error e
    | .ok (w,none) => .ok w
    | .ok (w,some pdp) => haveino k w pdp
  else match k.enter w.sys w.dp with
    | some e => .error (.answer (k.bad w.sys w.dp e))
    | none => .ok {w with searching := true}

def run : Nat → Walk σ ι → Option (End ρ)
  | 0,_ => none
  | fuel + 1,w => match step k w with
    | .error e => some e
    | .ok w => run fuel w

def start (sys : σ) (m : Memory) (name : List UInt8) : Except (End ρ) (Walk σ ι) :=
  if name.length > maxpathlen then .error (.answer (k.retNULL sys .enoent))
  else begin k ⟨sys,copyIn m k.path name.length fun i => name.getD i 0,k.path,k.cdir sys,0,false⟩
    (fun sys => (k.hold (k.lock sys (k.rootdir sys)) (k.rootdir sys),k.rootdir sys))
    (fun sys => (k.hold (k.lock sys (k.cdir sys)) (k.cdir sys),k.cdir sys))

end

end Retrobsd.Symlinks

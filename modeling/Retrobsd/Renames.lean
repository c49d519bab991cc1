import Retrobsd.Lib.Indices

/-! The flag `IRENAME` of a directory that `rename` moves. Of the inodes in core it is the
source's that is followed, with the references to it that the call holds itself; what
the routines under `rename` come back with, and how many references others hold to the
source each time that one is given up, is up to the rest of the system. -/
namespace Retrobsd.Renames

def eperm : Nat := 1
def exdev : Nat := 18
def enotdir : Nat := 20
def eisdir : Nat := 21
def einval : Nat := 22
def enotempty : Nat := 66

structure Inode where
  iDev : Nat
  iNumber : Nat
  directory : Bool
  immutable : Bool
  append : Bool
  sticky : Bool
  iUid : Nat
  iNlink : Int
deriving DecidableEq

def Inode.is (x y : Inode) : Bool := x.iDev = y.iDev ∧ x.iNumber = y.iNumber

/-- The inode that `from` names, its directory, its entry and whether it is being renamed. -/
structure Found where
  ip : Inode
  dp : Inode
  dName : List Char
  iRename : Bool
deriving DecidableEq

structure Target where
  dp : Inode
  slot : Nat
  xp : Option Inode
deriving DecidableEq

inductive Point where
  | refused
  | target (turn : Nat)
  | checkpath (turn : Nat)
  | entered
  | dp
  | xp
  | source
deriving DecidableEq

structure Answers where
  uUid : Nat
  source : Except Nat Found
  target : Except Nat Target
  access : Option Nat
  /-- `checkpath` and the `namei` after it, for each turn of the loop. -/
  turns : List (Option Nat × Except Nat Target)
  direnter : Option Nat
  dirempty : Bool
  dirrewrite : Option Nat
  again : Except Nat (Inode × Inode)
  readDotdot : Option Nat
  dirremove : Bool
  removed : Nat
  others : Point → Nat

/-- The source's inode in core, where `held` references to it are the call's. -/
structure Source where
  iRename : Bool
  iNlink : Int
  held : Nat
deriving DecidableEq

def irele (others : Nat) (s : Source) : Source := {s with
    iRename := if s.held + others = 1 then false else s.iRename
    held := s.held - 1}

inductive Reply where
  | returns (uError : Nat)
  | panics (message : String)
  | loops
deriving DecidableEq

abbrev Result := Reply × Option Source

section

variable (a : Answers) (ip : Inode)

def hold (x : Inode) (s : Source) : Source := if x.is ip then {s with held := s.held + 1} else s

def iput (x : Inode) (here : Point) (s : Source) : Source := if x.is ip then irele (a.others here) s else s

def holdTarget (dest : Target) (s : Source) : Source := (dest.xp.elim id (hold ip)) (hold ip dest.dp s)

def iputTarget (xp : Option Inode) (here : Point) (s : Source) : Source := xp.elim s fun xp => iput a ip xp here s

def out (error : Nat) (s : Source) : Result := (.returns error,some (irele (a.others .source) {s with iNlink := s.iNlink - 1}))

def bad1 (error : Nat) (xp : Option Inode) (s : Source) : Result := out a error (iputTarget a ip xp .xp s)

def bad (error : Nat) (dest : Target) (s : Source) : Result := bad1 a ip error dest.xp (iput a ip dest.dp .dp s)

def checkpaths : List (Option Nat × Except Nat Target) → Nat → Target → Source → Except Result (Target × Source)
  | [],_,_,s => .error (.loops,some s)
  | (checkpath,next) :: rest,turn,dest,s =>
    let s := iputTarget a ip dest.xp (.target turn) s
    let s := iput a ip dest.dp (.checkpath turn) s
    match checkpath with
    | some error => .error (out a error s)
    | none => match next with
      | .error error => .error (out a error s)
      | .ok next =>
        let s := holdTarget ip next s
        if next.slot = dest.slot then .ok (next,s) else checkpaths rest (turn + 1) next s

def rewrite (dest : Target) (xp : Inode) (s : Source) : Except Result Source :=
  let s := iput a ip dest.dp .entered s
  match a.dirrewrite with
  | some error => .error (bad1 a ip error dest.xp s)
  | none =>
    if ip.directory ∧ xp.iNlink - 1 - 1 ≠ 0 then .error (.panics "rename: lnk dir",some s) else .ok (iput a ip xp .xp s)

def link (dest : Target) (s : Source) : Except Result Source :=
  match dest.xp with
  | none =>
    if dest.dp.iDev ≠ ip.iDev then .error (bad a ip exdev dest s)
    else
      let s := iput a ip dest.dp .entered s
      match a.direnter with
      | some error => .error (out a error s)
      | none => .ok s
  | some xp =>
    if xp.iDev ≠ dest.dp.iDev ∨ xp.iDev ≠ ip.iDev then .error (bad a ip exdev dest s)
    else if xp.iNumber = ip.iNumber then .error (bad a ip 0 dest s)
    else if dest.dp.sticky ∧ a.uUid ≠ 0 ∧ a.uUid ≠ dest.dp.iUid ∧ xp.iUid ≠ a.uUid then .error (bad a ip eperm dest s)
    else if xp.directory ∧ (¬ a.dirempty ∨ xp.iNlink > 2) then .error (bad a ip enotempty dest s)
    else if xp.directory ∧ ¬ ip.directory then .error (bad a ip enotdir dest s)
    else if ¬ xp.directory ∧ ip.directory then .error (bad a ip eisdir dest s)
    else rewrite a ip dest xp s

def unlink (newparent : Nat) (s : Source) : Result :=
  match a.again with
  | .error error =>
    if ip.directory then (.panics "rename: lost dir entry",some s)
    else (.returns error,some (irele (a.others .source) s))
  | .ok (xp,dp) =>
    let s := hold ip xp (hold ip dp s)
    if ¬ xp.is ip then
      if ip.directory then (.panics "rename: lost dir entry",some s)
      else (.returns 0,some (irele (a.others .source) (iput a ip xp .xp (iput a ip dp .dp s))))
    else
      let error := if ip.directory ∧ newparent ≠ 0 then a.readDotdot else none
      let s := if a.dirremove then {s with iNlink := s.iNlink - 1} else s
      let s := {s with iRename := false}
      (.returns (error.getD a.removed),some (irele (a.others .source) (iput a ip xp .xp (iput a ip dp .dp s))))

def move (oldparent : Nat) (s : Source) : Result :=
  match a.target with
  | .error error => out a error s
  | .ok dest =>
    let s := holdTarget ip dest s
    if dest.xp.any fun xp => xp.immutable ∨ xp.append ∨ dest.dp.append then bad a ip eperm dest s
    else
      let newparent := if oldparent ≠ dest.dp.iNumber then dest.dp.iNumber else 0
      let checked : Except Result (Target × Source) :=
        if ip.directory ∧ newparent ≠ 0 then
          match a.access with
          | some error => .error (bad a ip error dest s)
          | none => checkpaths a ip a.turns 0 dest s
        else .ok (dest,s)
      match checked with
      | .error stopped => stopped
      | .ok (dest,s) => match link a ip dest s with
        | .error stopped => stopped
        | .ok s => unlink a ip newparent s

end

def rename (a : Answers) : Result :=
  match a.source with
  | .error error => (.returns error,none)
  | .ok f =>
    let s : Source := hold f.ip f.dp ⟨f.iRename,f.ip.iNlink,1⟩
    if f.ip.immutable ∨ f.ip.append ∨ f.dp.append then
      (.returns eperm,some (irele (a.others .source) (iput a f.ip f.dp .refused s)))
    else if f.ip.directory ∧ (f.dName = ['.'] ∨ f.dName = ['.','.'] ∨ f.dp.is f.ip ∨ f.iRename) then
      (.returns einval,some (irele (a.others .source) (iput a f.ip f.dp .refused s)))
    else
      let s := if f.ip.directory then {s with iRename := true} else s
      let oldparent := if f.ip.directory then f.dp.iNumber else 0
      let s := iput a f.ip f.dp .refused s
      move a f.ip oldparent {s with iNlink := s.iNlink + 1}

end Retrobsd.Renames

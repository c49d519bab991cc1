import Retrobsd.Archives
import Retrobsd.RelocationStreams

/-! The commands of `ar`, and `build` of `ranlib`, on the bytes of an archive. Each of them gives the
archive that it leaves, if there is one, and its exit status. -/
namespace Retrobsd.Archives
open Relocations (Byte Word Exec getc fgetword fgethdr nTypeMask nUndf nExt rmagic)
open Lib.Fields

def eachArobj {σ : Type} (act : Chdr → List Byte → σ → Except Fault (σ × Option (List Byte))) : Nat →
    List Byte → σ → Except Fault σ
  | 0,_,_ => .error .fuel
  | n + 1,f,s => do
    match ← getArobj f with
    | none => return s
    | some (c,f) =>
      match ← act c f s with
      | (s,none) => return s
      | (s,some f) => eachArobj act n f s

def files (name : List Byte) : List Path → Option (Path × List Path)
  | [] => none
  | p :: argv => if name = rname p.bytes then some (p,argv) else (files name argv).map fun (q,argv) => (q,p :: argv)

def openArchive (file : List Byte) : Except Fault (List Byte) :=
  if file.take sarmag = armag then .ok (file.drop sarmag) else .error .badfmt

def copyAll (tfd : List Byte) : Except Fault (List Byte) := (copyAr false false tfd.length 0 tfd).map Prod.fst

abbrev Disk := Path → Option Stat

def putAll (disk : Disk) : List Path → Except Fault (List Byte × Nat)
  | [] => .ok ([],0)
  | p :: argv =>
    match disk p with
    | none => do
      let (out,_) ← putAll disk argv
      return (out,1)
    | some sb => do
      let first ← putDisk p sb
      let (out,status) ← putAll disk argv
      return (first ++ out,status)

def append (disk : Disk) (argv : List Path) (archive : Option (List Byte)) : Except Fault (Option (List Byte) × Nat) := do
  let file ← match archive with
    | none => pure armag
    | some file => do
      let _ ← openArchive file
      pure file
  let (out,eval) ← putAll disk argv
  return (some (file ++ out),eval)

structure Deleting where
  argv : List Path
  tfd : List Byte

def deleteAct (c : Chdr) (f : List Byte) (s : Deleting) : Except Fault (Deleting × Option (List Byte)) := do
  match files c.name s.argv with
  | some (_,argv) =>
    let f ← skipArobj c f
    return ({s with argv},some f)
  | none =>
    let (out,f) ← putHeld c f
    return ({s with tfd := s.tfd ++ out},some f)

def delete (argv : List Path) (archive : Option (List Byte)) : Except Fault (Option (List Byte) × Nat) := do
  let some file := archive | .error .missing
  let f ← openArchive file
  let s ← eachArobj deleteAct (f.length + 1) f ⟨argv,[]⟩
  let out ← copyAll s.tfd
  return (some (armag ++ out),if s.argv = [] then 0 else 1)

structure Place where
  behind : Bool
  posname : List Byte
deriving DecidableEq

/-- The files before and after the key file, with `curfd` and `mods`. -/
structure Parts where
  tfd1 : List Byte
  tfd2 : List Byte
  later : Bool
  mods : Bool

def Parts.start (place : Option Place) : Parts := ⟨[],[],false,place.isSome⟩

def Parts.put (s : Parts) (out : List Byte) : Parts :=
  if s.later then {s with tfd2 := s.tfd2 ++ out} else {s with tfd1 := s.tfd1 ++ out}

def isKey (place : Option Place) (name : List Byte) : Bool := place.any fun p => name == p.posname

def Parts.keep (place : Option Place) (name : List Byte) (s : Parts) (out : List Byte) : Parts :=
  if s.mods && isKey place name then
    if place.any Place.behind then {s.put out with later := true,mods := false}
    else {s with later := true,mods := false}.put out
  else s.put out

structure Replacing where
  argv : List Path
  parts : Parts
  err : Nat

def replaceAct (disk : Disk) (update : Bool) (place : Option Place) (c : Chdr) (f : List Byte) (s : Replacing) :
    Except Fault (Replacing × Option (List Byte)) := do
  match files c.name s.argv with
  | some (file,argv) =>
    match disk file with
    | none =>
      let (out,f) ← putHeld c f
      return (⟨argv,s.parts.put out,1⟩,some f)
    | some sb =>
      if update && sb.mtime ≤ c.date then
        let (out,f) ← putHeld c f
        return ({s with argv,parts := s.parts.put out},some f)
      else
        let out ← putDisk file sb
        let f ← skipArobj c f
        return ({s with argv,parts := s.parts.put out},some f)
  | none =>
    let (out,f) ← putHeld c f
    return ({s with parts := s.parts.keep place c.name out},some f)

/-- Replace or add named members to archive. Without an archive there is no file for what goes before
or behind a member, and a write to it fails. -/
def replace (disk : Disk) (update : Bool) (place : Option Place) (argv : List Path) (archive : Option (List Byte)) :
    Except Fault (Option (List Byte) × Nat) := do
  match archive with
  | none =>
    if place.isSome && argv.any fun p => (disk p).isSome then return (some armag,1)
    let (out,err) ← putAll disk argv
    let out ← copyAll out
    return (some (armag ++ out),err)
  | some file =>
    let f ← openArchive file
    let s ← eachArobj (replaceAct disk update place) (f.length + 1) f ⟨argv,.start place,0⟩
    if s.parts.mods then return (some file,1)
    let (out,err) ← putAll disk s.argv
    let first ← copyAll (if place.isSome then s.parts.tfd1 ++ out else s.parts.tfd1)
    let second ← copyAll (if place.isSome then s.parts.tfd2 else s.parts.tfd2 ++ out)
    return (some (armag ++ first ++ second),max s.err err)

/-- The selected files are `tfd2` of the source, and the files after the key file `tfd3`. -/
structure Moving where
  argv : List Path
  parts : Parts
  selected : List Byte

def moveAct (place : Option Place) (c : Chdr) (f : List Byte) (s : Moving) : Except Fault (Moving × Option (List Byte)) := do
  let (out,f) ← putHeld c f
  match files c.name s.argv with
  | some (_,argv) => return ({s with argv,selected := s.selected ++ out},some f)
  | none => return ({s with parts := s.parts.keep place c.name out},some f)

def move (place : Option Place) (argv : List Path) (archive : Option (List Byte)) : Except Fault (Option (List Byte) × Nat) := do
  let some file := archive | .error .missing
  let f ← openArchive file
  let s ← eachArobj (moveAct place) (f.length + 1) f ⟨argv,.start place,[]⟩
  if s.parts.mods then return (some file,1)
  let first ← copyAll s.parts.tfd1
  let second ← copyAll s.selected
  let third ← copyAll s.parts.tfd2
  return (some (armag ++ first ++ second ++ third),if s.argv = [] then 0 else 1)

structure Extracted where
  file : List Byte
  contents : List Byte
  mode : Int
deriving DecidableEq

structure Extracting where
  argv : List Path
  out : List Extracted

/-- Files are written under the paths of the arguments, or under their names. With `-u` a member that is
older than the file is left where it is. Which files there are may depend on those written before. -/
def extractAct (mtimes : List Extracted → List Byte → Option Int) (writes : List Extracted → List Byte → Bool)
    (update all : Bool) (c : Chdr)
    (f : List Byte) (s : Extracting) : Except Fault (Extracting × Option (List Byte)) := do
  let picked := if all then some (c.name,s.argv) else (files c.name s.argv).map fun (p,argv) => (p.bytes,argv)
  match picked with
  | none =>
    let f ← skipArobj c f
    return (s,some f)
  | some (file,argv) =>
    let s := {s with argv}
    if update && (mtimes s.out file).any (· > c.date) then return (s,some f)
    if !writes s.out file then
      let f ← skipArobj c f
      return (s,some f)
    let (out,f) ← copyAr true false c.size 0 f
    let s := {s with out := s.out ++ [⟨file,out,c.mode⟩]}
    return (s,if !all && s.argv = [] then none else some f)

def extract (mtimes : List Extracted → List Byte → Option Int) (writes : List Extracted → List Byte → Bool) (update : Bool)
    (argv : List Path) (archive : Option (List Byte)) : Except Fault (List Extracted × Nat) := do
  let some file := archive | .error .missing
  let f ← openArchive file
  let s ← eachArobj (extractAct mtimes writes update argv.isEmpty) (f.length + 1) f ⟨argv,[]⟩
  return (s.out,if s.argv = [] then 0 else 1)

def ranlibmag : List Byte := text "__.SYMDEF"

structure Rlib where
  pos : Nat
  sym : List Byte
deriving DecidableEq

def fgets : Nat → List Byte → List Byte × List Byte
  | 0,f => ([],f)
  | n + 1,f =>
    let (c,f) := getc f
    let (name,f) := fgets n f
    (c.setWidth 8 :: name,f)

/-- The symbols that `rexec` saves. A name without length is taken for no symbol, and the next byte is
looked at; at the end of the file `rexec` fails. -/
def rexecLoop (wOff : Nat) : Nat → Int → List Byte → Except Fault (List Rlib)
  | 0,_,_ => .error .fuel
  | n + 1,nsyms,f =>
    if nsyms ≤ 4 then .ok []
    else match f with
      | [] => .error .badfmt
      | len :: f =>
        if len = 0 then rexecLoop wOff n nsyms f
        else
          let (type,f) := getc f
          let (value,f) := fgetword f
          let (name,f) := fgets len.toNat f
          let found := rexecLoop wOff n (nsyms - (len.toNat + 6)) f
          if type &&& nExt = 0 then found
          else if type &&& nTypeMask = nUndf ∧ value = 0 then found
          else found.map (⟨wOff,name⟩ :: ·)

def omagic : Word := 0x107

def nmagic : Word := 0x108

def symoff (h : Exec) : Word :=
  if h.magic = rmagic then 32 + h.text + h.data + h.reltext + h.reldata else 32 + h.text + h.data

/-- Read the exec structure at `rOff`; ignore any files that do not look exactly right. -/
def rexec (archive : List Byte) (rOff wOff : Nat) : Except Fault (List Rlib) :=
  let ebuf := archive.drop rOff
  if ebuf.length < 32 then .ok []
  else
    let h := fgethdr ebuf
    if h.magic ≠ rmagic ∧ h.magic ≠ omagic ∧ h.magic ≠ nmagic ∨ h.syms = 0 then .ok []
    else
      let offset := symoff h + BitVec.ofNat 32 rOff
      if offset.toInt < 0 then .ok []
      else
        let f := archive.drop offset.toNat
        rexecLoop wOff (f.length + 1) h.syms.toInt f

def ransize (rs : List Rlib) : Nat :=
  let size := (rs.map fun r => r.sym.length + 5).sum
  size + (4 - size % 4)

def symobj (rs : List Rlib) : List Byte :=
  let baseoff := sarmag + arhdrsz + ransize rs
  (rs.flatMap fun r => BitVec.ofNat 8 r.sym.length :: (Relocations.fputword (BitVec.ofNat 32 (baseoff + r.pos)) ++ r.sym)) ++
    List.replicate (4 - (rs.map fun r => r.sym.length + 5).sum % 4) 0

structure Building where
  tfd : List Byte
  rlibs : List Rlib

def buildAct (archive : List Byte) (c : Chdr) (f : List Byte) (s : Building) : Except Fault (Building × Option (List Byte)) := do
  if c.name = ranlibmag then
    let f ← skipArobj c f
    return (s,some f)
  else
    let found ← rexec archive (archive.length - f.length) s.tfd.length
    let (out,f) ← putHeld c f
    return (⟨s.tfd ++ out,s.rlibs ++ found⟩,some f)

structure User where
  uid : Nat
  gid : Nat
  umask : Nat
  time : Int

def ranlibskew : Int := 3

def symdefHeader (user : User) (date : Int) (size : Nat) : List Byte :=
  left 16 (ranlibmag.take 16) ++ left 12 (decimal date) ++ left 6 (digits 10 user.uid) ++ left 6 (digits 10 user.gid) ++
    left 8 (digits 8 (0o666 &&& (0o777 ^^^ user.umask % 0o1000))) ++ left 10 (digits 10 size) ++ arfmag

def overwrite (old new : List Byte) : List Byte := new ++ old.drop new.length

def settime (archive : List Byte) (time : Int) : List Byte :=
  archive.take 24 ++ (left 12 (decimal (time + ranlibskew))).take 12 ++ archive.drop 36

/-- The members are copied behind a new table. If their copy has an odd size, `copy_ar` does not find the
byte of padding, and the archive stays as it is then. -/
def build (user : User) (archive : Option (List Byte)) : Except Fault (Option (List Byte) × Nat) := do
  let some file := archive | .error .missing
  let f ← openArchive file
  let s ← eachArobj (buildAct file) (f.length + 1) f ⟨[],[]⟩
  let table := symobj s.rlibs
  let front := armag ++ (symdefHeader user 0 (ransize s.rlibs)).take arhdrsz ++ table
  match copyAr true true s.tfd.length 0 s.tfd with
  | .error _ => return (some (overwrite file (front ++ s.tfd)),1)
  | .ok (out,_) => return (some (settime (front ++ out) user.time),0)

end Retrobsd.Archives

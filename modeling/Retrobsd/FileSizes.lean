import Retrobsd.Truncation

/-! Sizes of regular files under `write`, `truncate` and `ftruncate` with offsets and lengths of 32 bits. `iSize` holds the
bits of `i_size`, which `rwip` compares as a signed number and `itrunc` as an unsigned one. -/
namespace Retrobsd.FileSizes
open Lib.Run
open FileData (File)
open BlockMap (bmap)
open Truncation (Fault Truncated lift allocated itrunc)

abbrev Word := BitVec 32

def extendTo (f : File) (upto : Word) : File :=
  if upto.toInt > (BitVec.ofNat 32 f.ip.iSize).toInt then {f with ip := {f.ip with iSize := upto.toNat}} else f

/-- The loop of `rwip` for a write, of which `moved` bytes are done; the second result tells that an error is returned. -/
def writeLoop (data : Nat → UInt8) : Nat → File → Word → Word → Nat → Except Fault (File × Bool)
  | 0,f,_,_,_ => .ok (f,false)
  | turns + 1,f,offset,resid,moved => do
    let lbn := offset.toNat / 1024
    let on := offset.toNat % 1024
    let n := min (1024 - on) resid.toNat
    let r ← lift (bmap f lbn true (n ≠ 1024))
    match r.answer with
    | .block bn =>
      let f := extendTo r.file (offset + BitVec.ofNat 32 n)
      if n ≠ 1024 ∧ f.volume.failing bn then return (f,true)
      let f := FileData.storeBlock f bn ((f.volume.disk bn).fill on n fun i => data (moved + i))
      if resid - BitVec.ofNat 32 n ≠ 0 then
        writeLoop data turns f (offset + BitVec.ofNat 32 n) (resid - BitVec.ofNat 32 n) (moved + n)
      else return (f,false)
    | _ => return (r.file,true)

def startOf (f : File) (append : Bool) (offset : Word) : Word := if append then BitVec.ofNat 32 f.ip.iSize else offset

def rwip (f : File) (rlim : Word) (append : Bool) (offset resid : Word) (data : Nat → UInt8) : Except Fault (File × Bool) :=
  let offset := startOf f append offset
  if f.ip.append ∧ offset ≠ BitVec.ofNat 32 f.ip.iSize then .ok (f,true)
  else if resid = 0 then .ok (f,false)
  else if offset + resid > rlim then .ok (f,true)
  else writeLoop data resid.toNat f offset resid 0

def vnoval : Word := -1

/-- `ufs_setattr` where `va_size` is all that is given. -/
def ufsSetattr (f : File) (fsRonly immutable : Bool) (vaSize : Word) : Except Fault (File × Bool) :=
  if fsRonly then .ok (f,true)
  else if immutable ∨ f.ip.append then .ok (f,true)
  else if vaSize ≠ vnoval then (itrunc f false false vaSize.toNat).map fun r => (r.file,!r.complete)
  else .ok (f,false)

/-- `denied` tells that `truncate` has no access to the file, or `ftruncate` no descriptor that is open for writing. -/
inductive Op where
  | write (rlim : Word) (append : Bool) (offset resid : Word) (data : Nat → UInt8)
  | truncate (denied fsRonly immutable : Bool) (length : Word)

def perform (f : File) : Op → Except Fault (File × Bool)
  | .write rlim append offset resid data => rwip f rlim append offset resid data
  | .truncate denied fsRonly immutable length => if denied then .ok (f,true) else ufsSetattr f fsRonly immutable length

def step (f : File) (op : Op) : Except Fault File := (perform f op).map Prod.fst

def MakesNegative (f : File) : Op → Prop
  | .write _ append offset resid _ => 0 ≤ (startOf f append offset).toInt ∧ resid ≠ 0 ∧
    2^31 ≤ (startOf f append offset).toNat + resid.toNat
  | .truncate _ _ _ length => length.toInt < 0

/-- A request that would make the size negative fails and changes nothing. -/
structure Right (f : File) (op : Op) : Prop where
  nonneg : f.ip.iSize < 2^31
  refused : MakesNegative f op → perform f op = .ok (f,true)

def Unmapped (f : File) (length : Word) : Prop :=
  ∃ r, bmap f ((length.toNat - 1) / 1024 : Nat) true true = .ok r ∧ r.file = f ∧ ∀ nb, r.answer ≠ .block nb

/-- A write does not go around the 32 bits where it meets the limit, and a length that is negative is refused for another
reason. -/
def Allowed (f : File) : Op → Prop
  | .write rlim append offset resid _ => (startOf f append offset).toInt < 0 ∨
    (startOf f append offset).toNat + resid.toNat < 2^31 ∨ startOf f append offset + resid > rlim
  | .truncate denied fsRonly immutable length => denied = true ∨ fsRonly = true ∨ immutable = true ∨ f.ip.append = true ∨
    0 ≤ length.toInt ∨ length ≠ vnoval ∧ Unmapped f length

variable {f f' : File}

theorem address_iSize {i : Fin 7} {write clrbuf : Bool} {r : BlockMap.Mapping} (ok : BlockMap.address f i write clrbuf = .ok r) :
    r.file.ip.iSize = f.ip.iSize := by
  rw [BlockMap.address] at ok
  split_ifs at ok
  · obtain ⟨⟨v,_ | nb⟩,-,same⟩ := except_bind_ok ok <;> cases same <;> rfl
  · cases ok
    rfl
  · cases ok
    rfl

theorem bmap_iSize {bn : Int} {write clrbuf : Bool} {r : BlockMap.Mapping} (ok : bmap f bn write clrbuf = .ok r) :
    r.file.ip.iSize = f.ip.iSize := by
  rw [bmap] at ok
  by_cases low : bn < 0
  · rw [if_pos low] at ok
    cases ok
    rfl
  rw [if_neg low] at ok
  by_cases direct : bn < FileData.ndaddr
  · rw [if_pos direct] at ok
    obtain ⟨m,reached,same⟩ := except_bind_ok ok
    rw [← address_iSize reached]
    split at same <;> cases same <;> rfl
  rw [if_neg direct] at ok
  split at ok
  · cases ok
    rfl
  obtain ⟨m,reached,ok⟩ := except_bind_ok ok
  rw [← address_iSize reached]
  split at ok
  · obtain ⟨t,-,same⟩ := except_bind_ok ok
    cases same
    rfl
  · cases ok
    rfl

theorem lift_ok {ε α : Type} {result : Except ε α} {value : α} (ok : lift result = .ok value) : result = .ok value := by
  cases result with
  | error => cases ok
  | ok => cases ok; rfl

theorem extendTo_iSize (nonneg : f.ip.iSize < 2^31) (upto : Word) : (extendTo f upto).ip.iSize < 2^31 := by
  rw [extendTo]
  split_ifs with longer
  · rw [BitVec.toInt_eq_toNat_cond,BitVec.toInt_eq_toNat_cond,BitVec.toNat_ofNat] at longer
    have := upto.isLt
    change upto.toNat < 2^31
    split_ifs at longer <;> omega
  · exact nonneg

variable {error : Bool}

theorem writeLoop_iSize {data : Nat → UInt8} {turns moved : Nat} {offset resid : Word} (nonneg : f.ip.iSize < 2^31)
    (ok : writeLoop data turns f offset resid moved = .ok (f',error)) : f'.ip.iSize < 2^31 := by
  induction turns generalizing f offset resid moved with
  | zero =>
    cases ok
    exact nonneg
  | succ turns ih =>
    obtain ⟨r,reached,ok⟩ := except_bind_ok ok
    have kept : r.file.ip.iSize < 2^31 := bmap_iSize (lift_ok reached) ▸ nonneg
    split at ok
    · have longer := extendTo_iSize kept (offset + BitVec.ofNat 32 (min (1024 - offset.toNat % 1024) resid.toNat))
      dsimp only at ok
      split_ifs at ok
      · cases ok
        exact longer
      · refine ih ?_ ok
        exact longer
      · cases ok
        exact longer
    · cases ok
      exact kept

theorem allocated_iSize {bn : Nat} {nb : Option Nat} (ok : allocated f bn error = .ok (f',nb)) : f'.ip.iSize = f.ip.iSize := by
  rw [allocated] at ok
  split at ok
  · cases ok
  next r reached =>
  rw [← bmap_iSize reached]
  split at ok <;> cases ok <;> rfl

variable {r : Truncated}

theorem shorten_iSize {length : Nat} (ok : Truncation.shorten f length = .ok r) : r.file.ip.iSize = length := by
  obtain ⟨s,-,ok⟩ := except_bind_ok ok
  obtain ⟨_,-,same⟩ := except_bind_ok ok
  cases same
  rfl

theorem itrunc_iSize {length : Nat} (ok : itrunc f false false length = .ok r) :
    r.file.ip.iSize = f.ip.iSize ∨ r.file.ip.iSize = length := by
  simp only [itrunc,Truncation.sized,Truncation.cutOff,Bool.false_eq_true,if_false,true_and] at ok
  split_ifs at ok
  · cases ok
    exact .inl rfl
  · obtain ⟨⟨g,_ | nb⟩,reached,same⟩ := except_bind_ok ok <;> cases same
    · exact .inl (allocated_iSize reached)
    · exact .inr rfl
  · obtain ⟨⟨g,_ | nb⟩,reached,ok⟩ := except_bind_ok ok
    · cases ok
      exact .inl (allocated_iSize reached)
    · exact .inr (shorten_iSize ok)
  · exact .inr (shorten_iSize ok)

theorem itrunc_unmapped {length : Word} (longer : f.ip.iSize < length.toNat) (unmapped : Unmapped f length) :
    itrunc f false false length.toNat = .ok ⟨f,false⟩ := by
  obtain ⟨r,reached,rfl,absent⟩ := unmapped
  have nothing : allocated r.file ((length.toNat - 1) / 1024) false = .ok (r.file,none) := by
    rw [allocated,reached]
    dsimp only
    split
    · next nb block => exact absurd block (absent nb)
    · rfl
  rw [itrunc,if_neg (by omega)]
  dsimp only
  rw [Truncation.sized,if_neg Bool.false_ne_true,if_pos longer,nothing]
  rfl

section
variable (nonneg : f.ip.iSize < 2^31)
include nonneg

theorem truncate_iSize {denied fsRonly immutable : Bool} {length : Word}
    (allowed : Allowed f (.truncate denied fsRonly immutable length)) (given : denied = false) (writable : fsRonly = false)
    (free : ¬ (immutable = true ∨ f.ip.append = true)) (done : itrunc f false false length.toNat = .ok r) :
    r.file.ip.iSize < 2^31 := by
  rw [not_or] at free
  have either := itrunc_iSize done
  rcases allowed with out | out | out | out | positive | ⟨-,unmapped⟩
  · cases given.symm.trans out
  · cases writable.symm.trans out
  · exact absurd out free.1
  · exact absurd out free.2
  · rw [BitVec.toInt_eq_toNat_cond] at positive
    have := length.isLt
    split_ifs at positive <;> omega
  · rcases Nat.lt_or_ge f.ip.iSize length.toNat with longer | shorter
    · rw [itrunc_unmapped longer unmapped] at done
      cases done
      exact nonneg
    · omega

theorem perform_iSize {op : Op} (allowed : Allowed f op) (ok : perform f op = .ok (f',error)) : f'.ip.iSize < 2^31 := by
  cases op with
  | write rlim append offset resid data =>
    simp only [perform,rwip] at ok
    split_ifs at ok
    · cases ok; exact nonneg
    · cases ok; exact nonneg
    · cases ok; exact nonneg
    · exact writeLoop_iSize nonneg ok
  | truncate denied fsRonly immutable length =>
    simp only [perform,ufsSetattr] at ok
    split_ifs at ok with out only kept given
    · cases ok; exact nonneg
    · cases ok; exact nonneg
    · cases ok; exact nonneg
    · obtain ⟨r,done,same⟩ := except_map_ok ok
      cases same
      exact truncate_iSize nonneg allowed (Bool.eq_false_iff.mpr out) (Bool.eq_false_iff.mpr only) kept done
    · cases ok; exact nonneg

theorem negative_refused {op : Op} (allowed : Allowed f op) (negative : MakesNegative f op) : perform f op = .ok (f,true) := by
  cases op with
  | write rlim append offset resid data =>
    obtain ⟨ahead,some_bytes,beyond⟩ := negative
    have above : startOf f append offset + resid > rlim := (allowed.resolve_left (by omega)).resolve_left (by omega)
    simp only [perform,rwip,some_bytes,above,if_true,if_false]
    split_ifs <;> rfl
  | truncate denied fsRonly immutable length =>
    have high : 2^31 ≤ length.toNat := by
      have below : length.toInt < 0 := negative
      rw [BitVec.toInt_eq_toNat_cond] at below
      split_ifs at below <;> omega
    simp only [perform,ufsSetattr]
    split_ifs with out only kept given
    · rfl
    · rfl
    · rfl
    · rw [not_or] at kept
      rcases allowed with away | away | away | away | positive | ⟨-,unmapped⟩
      · exact absurd away out
      · exact absurd away only
      · exact absurd away kept.1
      · exact absurd away kept.2
      · exact absurd negative (by simp only [MakesNegative]; omega)
      · rw [itrunc_unmapped (by omega) unmapped]
        rfl
    · rw [not_or] at kept
      rcases allowed with away | away | away | away | positive | ⟨other,-⟩
      · exact absurd away out
      · exact absurd away only
      · exact absurd away kept.1
      · exact absurd away kept.2
      · exact absurd negative (by simp only [MakesNegative]; omega)
      · exact absurd other given

/-- Where every request is allowed, no state of a run has a file of negative size. -/
theorem sizes_nonneg (ops : List Op) (allowed : Along step Allowed f ops) :
    Along step Right f ops ∧ ∀ t, run step f ops = .ok t → t.ip.iSize < 2^31 := by
  have preserved : ∀ (f : File) op t, f.ip.iSize < 2^31 → Allowed f op → step f op = .ok t → t.ip.iSize < 2^31 := by
    intro f op t nonneg allowed ok
    obtain ⟨⟨g,error⟩,done,rfl⟩ := except_map_ok ok
    exact perform_iSize nonneg allowed done
  exact ⟨Along.of_invariant (fun _ _ nonneg allowed => ⟨nonneg,negative_refused nonneg allowed⟩) preserved ops f nonneg allowed,
    fun t ended => run_invariant preserved ops f t nonneg allowed ended⟩

end

def emptyFile : File where
  volume := {FreeList.smallVolume with fs := ⟨3,20,6,fun i => if i = 0 then 0 else 5 + i.val,0,0,0,5,"/",0⟩}
  ip := ⟨3,0,fun _ => 0,false⟩

theorem sizes_nonneg_emptyFile :
    Along step Right emptyFile [.write 0x7fffffff true 0 2000 fun _ => 7,.truncate false false false 10] ∧
    ∀ t, run step emptyFile [.write 0x7fffffff true 0 2000 fun _ => 7,.truncate false false false 10] = .ok t →
    t.ip.iSize < 2^31 :=
  sizes_nonneg (by decide) _ ⟨.inr (.inl (by decide)),fun _ _ =>
  ⟨.inr (.inr (.inr (.inr (.inl (by decide))))),fun _ _ => trivial⟩⟩

/-- `truncate` to -2^31 finds its block and makes the size negative. -/
theorem truncate_negative : emptyFile.ip.iSize < 2^31 ∧ ∃ t,
    perform emptyFile (.truncate false false false 0x80000000) = .ok (t,false) ∧
    t.ip.iSize = 2^31 := by
  have computed : returns (fun r => !r.2 && r.1.ip.iSize == 2^31)
    (perform emptyFile (.truncate false false false 0x80000000)) = true := by
    decide +kernel
  obtain ⟨⟨t,error⟩,done,passed⟩ := of_returns computed
  rw [Bool.and_eq_true,Bool.not_eq_true',beq_iff_eq] at passed
  obtain ⟨rfl,size⟩ := passed
  exact ⟨by decide,t,done,size⟩

end Retrobsd.FileSizes

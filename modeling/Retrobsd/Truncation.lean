import Retrobsd.BlockMap

/-! `itrunc` of `ufs_inode.c` with the two checks that a kernel with `DIAGNOSTIC` makes
at its end, on a device without errors. The blocks are freed through a copy of the
inode, which loses each address as its blocks go. -/
namespace Retrobsd.Truncation
open List
open Function (update update_eq_self update_of_ne update_self)

open FreeList (Volume)
open FileData (File Inode ib ndaddr lastiblock indirtrunc keptAddr indirect level place blocksOf numberedBlocks leafAt)
open BlockMap (bmap mapped)

inductive Fault where
  | sleeping
  | itrunc1
  | itrunc2

def maxpipsiz : Nat := ndaddr * 1024

structure Freeing where
  tip : Inode
  volume : Volume

def Freeing.drop (s : Freeing) (i : Fin 7) : Except FileData.Fault Freeing := do
  let v ← FileData.free s.volume s.tip.iNumber (s.tip.iAddr i)
  return ⟨{s.tip with iAddr := update s.tip.iAddr i 0},v⟩

/-- Indirect blocks first. The second result is that of `goto done`. -/
def freeLevels (lastblock : Int) : List Nat → Freeing → Except FileData.Fault (Freeing × Bool)
  | [],s => .ok (s,false)
  | level :: levels,s => do
    let last := lastiblock lastblock level
    let bn := s.tip.iAddr (ib level)
    let s ← if bn ≠ 0 then do
        let v ← indirtrunc s.tip.iNumber level s.volume bn (if last < 0 then -1 else last)
        if last < 0 then Freeing.drop {s with volume := v} (ib level) else .ok {s with volume := v}
      else .ok s
    if last ≥ 0 then return (s,true) else freeLevels lastblock levels s

def freeDirect (lastblock : Int) (s : Freeing) : Except FileData.Fault Freeing := [3,2,1,0].foldlM (fun s i =>
    if lastblock < (i : Nat) ∧ s.tip.iAddr (Fin.ofNat 7 i) ≠ 0 then s.drop (Fin.ofNat 7 i) else .ok s) s

def freeAll (lastblock : Int) (s : Freeing) : Except FileData.Fault Freeing :=
  (freeLevels lastblock [2,1,0] s).bind fun r => if r.2 then .ok r.1 else freeDirect lastblock r.1

def paranoia (ip oip : Inode) : Except Fault Unit :=
  if ∃ level ∈ List.range 3, ip.iAddr (ib level) ≠ oip.iAddr (ib level) then .error .itrunc1
  else if ∃ i ∈ List.range ndaddr, ip.iAddr (Fin.ofNat 7 i) ≠ oip.iAddr (Fin.ofNat 7 i) then .error .itrunc2
  else .ok ()

/-- `complete` tells that the end of `itrunc` was reached, where the inode is updated. -/
structure Truncated where
  file : File
  complete : Bool

def lift {ε α : Type} : Except ε α → Except Fault α
  | .error _ => .error .sleeping
  | .ok a => .ok a

/-- `bmap` of a block that is to be there; `error` tells that `u_error` is set. -/
def allocated (f : File) (bn : Nat) (error : Bool) : Except Fault (File × Option Nat) :=
  match bmap f bn true true with
  | .error _ => .error .sleeping
  | .ok r => match r.answer with
    | .block nb => .ok (r.file,if error then none else some nb)
    | _ => .ok (r.file,none)

def blocksFor (length : Nat) : Nat := (length + 1024 - 1) / 1024

def shorten (f : File) (length : Nat) : Except Fault Truncated := do
  let lastblock : Int := (blocksFor length : Nat) - 1
  let s ← lift (freeAll lastblock ⟨f.ip,f.volume⟩)
  let oip := {f.ip with iSize := length,iAddr := keptAddr f.ip lastblock}
  paranoia s.tip oip
  return ⟨⟨s.volume,oip⟩,true⟩

def cutOff (f : File) (error : Bool) (length : Nat) : Except Fault Truncated :=
  let offset := length % 1024
  if offset ≠ 0 then do
    match ← allocated f (length / 1024) error with
    | (f,none) => return ⟨f,false⟩
    | (f,some bn) =>
      shorten (FileData.storeBlock f bn ((f.volume.disk bn).fill offset (1024 - offset) fun _ => 0)) length
  else shorten f length

def sized (f : File) (pipe : Bool) : File := if pipe then {f with ip := {f.ip with iSize := maxpipsiz}} else f

def itrunc (f : File) (pipe error : Bool) (length : Nat) : Except Fault Truncated :=
  if pipe = false ∧ f.ip.iSize = length then .ok ⟨f,true⟩
  else
    let f := sized f pipe
    if f.ip.iSize < length then do
      match ← allocated f ((length - 1) / 1024) error with
      | (f,none) => return ⟨f,false⟩
      | (f,some _) => return ⟨{f with ip := {f.ip with iSize := length}},true⟩
    else cutOff f error length

def dropped (lastblock : Int) (levels : List Nat) (addr : Fin 7 → Nat) : Fin 7 → Nat :=
  levels.foldl (fun addr level => if lastiblock lastblock level < 0 then update addr (ib level) 0 else addr) addr

theorem dropped_kept {lastblock : Int} {levels : List Nat} (kept : ∀ level ∈ levels, lastiblock lastblock level ≥ 0)
    (addr : Fin 7 → Nat) : dropped lastblock levels addr = addr := by
  induction levels with
  | nil => rfl
  | cons level levels ih =>
    have first := kept level mem_cons_self
    rw [dropped,foldl_cons,if_neg (by omega)]
    exact ih fun later member => kept later (mem_cons_of_mem level member)

theorem freeLevels_eq (lastblock : Int) (levels : List Nat) (distinct : levels.Nodup) (small : ∀ level ∈ levels, level < 3)
    (order : levels.Pairwise fun a b => lastiblock lastblock a ≥ 0 → lastiblock lastblock b ≥ 0) (whole : Inode) :
    ∀ (tip : Inode) (v : Volume), tip.iNumber = whole.iNumber →
    (∀ level ∈ levels, tip.iAddr (ib level) = whole.iAddr (ib level)) →
      freeLevels lastblock levels ⟨tip,v⟩ = (FileData.truncLevels whole lastblock levels v).map fun r =>
        (⟨{tip with iAddr := dropped lastblock levels tip.iAddr},r.1⟩,r.2) := by
  induction levels with
  | nil => exact fun _ _ _ _ => rfl
  | cons level levels ih =>
    rintro ⟨ino,size,addr,append⟩ v rfl same
    dsimp only at same ⊢
    have here := same level mem_cons_self
    obtain ⟨fresh,rest⟩ := nodup_cons.mp distinct
    obtain ⟨first,later⟩ := pairwise_cons.mp order
    have next := ih rest (fun other member => small other (mem_cons_of_mem level member)) later
    by_cases kept : lastiblock lastblock level ≥ 0
    · -- the levels that follow are kept as well
      have below : ¬ lastiblock lastblock level < 0 := by omega
      have all : dropped lastblock (level :: levels) addr = addr := dropped_kept (fun other member => by
        rcases mem_cons.mp member with rfl | member
        · exact kept
        · exact first other member kept) addr
      rw [all]
      simp only [freeLevels,FileData.truncLevels,here,below,kept,if_true,if_false]
      by_cases hole : whole.iAddr (ib level) = 0
      · simp only [hole,ne_eq,not_true_eq_false,if_false]
        rfl
      simp only [hole,ne_eq,not_false_eq_true,if_true]
      cases indirtrunc whole.iNumber level v (whole.iAddr (ib level)) (lastiblock lastblock level) <;> rfl
    have negative : lastiblock lastblock level < 0 := by omega
    have step : dropped lastblock (level :: levels) addr = dropped lastblock levels (update addr (ib level) 0) := by
      rw [dropped,foldl_cons,if_pos negative]
      rfl
    have apart : ∀ other ∈ levels, update addr (ib level) 0 (ib other) = whole.iAddr (ib other) := by
      intro other member
      rw [update_of_ne]
      · exact same other (mem_cons_of_mem level member)
      intro equal
      have values := congrArg Fin.val equal
      have bound := small level mem_cons_self
      have bound' := small other (mem_cons_of_mem level member)
      simp only [ib,Fin.ofNat,ndaddr] at values
      have equal : other = level := by omega
      exact fresh (equal ▸ member)
    rw [step]
    simp only [freeLevels,FileData.truncLevels,here,negative,kept,if_true,if_false]
    by_cases hole : whole.iAddr (ib level) = 0
    · have empty : update addr (ib level) 0 = addr := by
        rw [← hole,← here,update_eq_self]
      simp only [hole,ne_eq,not_true_eq_false,if_false]
      rw [empty]
      exact next ⟨whole.iNumber,size,addr,append⟩ v rfl fun other member => same other (mem_cons_of_mem level member)
    simp only [hole,ne_eq,not_false_eq_true,if_true,Freeing.drop,here]
    cases indirtrunc whole.iNumber level v (whole.iAddr (ib level)) (-1) with
    | error e => rfl
    | ok w =>
      simp only [bind,Except.bind]
      cases FileData.free w whole.iNumber (whole.iAddr (ib level)) with
      | error e => rfl
      | ok u => exact next ⟨whole.iNumber,size,update addr (ib level) 0,append⟩ u rfl apart

def cleared (lastblock : Int) (slots : List Nat) (addr : Fin 7 → Nat) : Fin 7 → Nat :=
  slots.foldl (fun addr i => if lastblock < (i : Nat) then update addr (Fin.ofNat 7 i) 0 else addr) addr

theorem freeDirect_eq (lastblock : Int) (slots : List Nat) (distinct : slots.Nodup) (small : ∀ i ∈ slots, i < 4)
    (whole : Inode) :
    ∀ (tip : Inode) (v : Volume), tip.iNumber = whole.iNumber →
    (∀ i ∈ slots, tip.iAddr (Fin.ofNat 7 i) = whole.iAddr (Fin.ofNat 7 i)) →
      slots.foldlM (fun s i => if lastblock < (i : Nat) ∧ s.tip.iAddr (Fin.ofNat 7 i) ≠ 0 then s.drop (Fin.ofNat 7 i) else .ok s)
        (⟨tip,v⟩ : Freeing) = (slots.foldlM (fun v i => if lastblock < (i : Nat) ∧ whole.iAddr (Fin.ofNat 7 i) ≠ 0 then
          FileData.free v whole.iNumber (whole.iAddr (Fin.ofNat 7 i)) else .ok v) v).map fun v =>
            ⟨{tip with iAddr := cleared lastblock slots tip.iAddr},v⟩ := by
  induction slots with
  | nil => exact fun _ _ _ _ => rfl
  | cons i slots ih =>
    rintro ⟨ino,size,addr,append⟩ v rfl same
    dsimp only at same ⊢
    obtain ⟨fresh,rest⟩ := nodup_cons.mp distinct
    have here := same i mem_cons_self
    have next := ih rest fun other member => small other (mem_cons_of_mem i member)
    have others : ∀ other ∈ slots, addr (Fin.ofNat 7 other) = whole.iAddr (Fin.ofNat 7 other) := fun other member =>
      same other (mem_cons_of_mem i member)
    rw [foldlM_cons,foldlM_cons,cleared,foldl_cons]
    by_cases behind : lastblock < (i : Nat)
    · rw [if_pos behind]
      by_cases hole : whole.iAddr (Fin.ofNat 7 i) = 0
      · have empty : update addr (Fin.ofNat 7 i) 0 = addr := by
          rw [← hole,← here,update_eq_self]
        simp only [here,hole,ne_eq,not_true_eq_false,and_false,if_false,empty]
        exact next ⟨whole.iNumber,size,addr,append⟩ v rfl others
      simp only [here,hole,behind,ne_eq,not_false_eq_true,and_true,if_true,Freeing.drop]
      have apart : ∀ other ∈ slots, update addr (Fin.ofNat 7 i) 0 (Fin.ofNat 7 other) = whole.iAddr (Fin.ofNat 7 other) := by
        intro other member
        rw [update_of_ne]
        · exact others other member
        intro equal
        have values := congrArg Fin.val equal
        have bound := small i mem_cons_self
        have bound' := small other (mem_cons_of_mem i member)
        simp only [Fin.ofNat] at values
        have equal : other = i := by omega
        exact fresh (equal ▸ member)
      simp only [bind,Except.bind]
      cases FileData.free v whole.iNumber (whole.iAddr (Fin.ofNat 7 i)) with
      | error e => rfl
      | ok u => exact next ⟨whole.iNumber,size,update addr (Fin.ofNat 7 i) 0,append⟩ u rfl apart
    · simp only [behind,false_and,if_false]
      exact next ⟨whole.iNumber,size,addr,append⟩ v rfl others

theorem truncLevels_kept {tip : Inode} {lastblock : Int} {levels : List Nat} : ∀ {v : Volume} {r : Volume × Bool},
    FileData.truncLevels tip lastblock levels v = .ok r → r.2 = true → ∃ level ∈ levels, lastiblock lastblock level ≥ 0 := by
  induction levels with
  | nil =>
    rintro v r done kept
    cases done
    cases kept
  | cons level levels ih =>
    intro v r done kept
    by_cases here : lastiblock lastblock level ≥ 0
    · exact ⟨level,mem_cons_self,here⟩
    have later : ∃ w, FileData.truncLevels tip lastblock levels w = .ok r := by
      simp only [FileData.truncLevels,here,if_false] at done
      by_cases hole : tip.iAddr (ib level) = 0
      · simp only [hole,ne_eq,not_true_eq_false,if_false] at done
        exact ⟨v,done⟩
      simp only [hole,ne_eq,not_false_eq_true,if_true] at done
      obtain ⟨w,_,done⟩ := Lib.Run.except_bind_ok done
      by_cases below : lastiblock lastblock level < 0
      · rw [if_pos below] at done
        obtain ⟨u,_,done⟩ := Lib.Run.except_bind_ok done
        exact ⟨u,done⟩
      · rw [if_neg below] at done
        exact ⟨w,done⟩
    obtain ⟨w,later⟩ := later
    obtain ⟨other,member,found⟩ := ih later kept
    exact ⟨other,mem_cons_of_mem level member,found⟩

theorem lastiblock_le (lastblock : Int) (level : Nat) : lastiblock lastblock level ≤ lastblock - ndaddr := by
  induction level with
  | zero => exact le_rfl
  | succ level ih =>
    rw [lastiblock]
    omega

theorem foldl_zero {p : Nat → Prop} [DecidablePred p] {g : Nat → Fin 7} (slots : List Nat) (i : Fin 7) : ∀ addr : Fin 7 → Nat,
    slots.foldl (fun addr j => if p j then update addr (g j) 0 else addr) addr i =
      if ∃ j ∈ slots, p j ∧ g j = i then 0 else addr i := by
  induction slots with
  | nil =>
    intro addr
    simp
  | cons j slots ih =>
    intro addr
    rw [foldl_cons,ih]
    by_cases cut : p j
    · by_cases here : g j = i
      · simp [cut,here]
      · simp [cut,here,update_of_ne (Ne.symm here)]
    · simp [cut]

theorem dropped_levels (lastblock : Int) (addr : Fin 7 → Nat) (i : Fin 7) : dropped lastblock [2,1,0] addr i =
    if ndaddr ≤ i.val ∧ lastiblock lastblock (i.val - ndaddr) < 0 then 0 else addr i := by
  rw [dropped,foldl_zero]
  congr 1
  fin_cases i <;> simp [ib,ndaddr,Fin.ext_iff]

theorem cleared_direct (lastblock : Int) (addr : Fin 7 → Nat) (i : Fin 7) : cleared lastblock [3,2,1,0] addr i =
    if i.val < ndaddr ∧ lastblock < i.val then 0 else addr i := by
  rw [cleared,foldl_zero]
  congr 1
  fin_cases i <;> simp [ndaddr,Fin.ext_iff]

theorem freeAll_eq (lastblock : Int) (tip : Inode) (v : Volume) : freeAll lastblock ⟨tip,v⟩ =
    (FileData.freeBlocks tip lastblock v).map fun v => ⟨{tip with iAddr := keptAddr tip lastblock},v⟩ := by
  have first : lastiblock lastblock 1 = lastiblock lastblock 0 - 256 := rfl
  have second : lastiblock lastblock 2 = lastiblock lastblock 1 - 65536 := rfl
  have order : [2,1,0].Pairwise fun a b => lastiblock lastblock a ≥ 0 → lastiblock lastblock b ≥ 0 := by
    simp only [pairwise_cons,mem_cons,not_mem_nil,or_false,forall_eq_or_imp,forall_eq,false_imp_iff,
      implies_true,and_true,List.Pairwise.nil]
    omega
  rw [freeAll,FileData.freeBlocks,freeLevels_eq lastblock [2,1,0] (by decide) (by decide) order tip tip v rfl fun _ _ => rfl]
  cases levels : FileData.truncLevels tip lastblock [2,1,0] v with
  | error e => rfl
  | ok r =>
    obtain ⟨w,kept⟩ := r
    simp only [Except.map,Except.bind]
    cases kept with
    | true =>
      obtain ⟨level,_,reached⟩ := truncLevels_kept levels rfl
      have far := lastiblock_le lastblock level
      unfold ndaddr at far
      have same : dropped lastblock [2,1,0] tip.iAddr = keptAddr tip lastblock := by
        funext i
        rw [dropped_levels,keptAddr]
        by_cases direct : i.val < ndaddr
        · rw [if_pos direct,if_neg (by omega),if_neg (by unfold ndaddr at direct; omega)]
        · simp [direct,not_lt.mp direct]
      rw [if_pos rfl,if_pos rfl,same]
    | false =>
      have direct := freeDirect_eq lastblock [3,2,1,0] (by decide) (by decide) tip
        {tip with iAddr := dropped lastblock [2,1,0] tip.iAddr} w rfl (by
          intro i member
          dsimp only
          rw [dropped_levels,if_neg]
          have small : ∀ j ∈ [3,2,1,0], (Fin.ofNat 7 j).val < ndaddr := by decide
          have bound := small i member
          omega)
      have same : cleared lastblock [3,2,1,0] (dropped lastblock [2,1,0] tip.iAddr) = keptAddr tip lastblock := by
        funext i
        rw [cleared_direct,dropped_levels,keptAddr]
        by_cases direct : i.val < ndaddr
        · rw [if_pos direct,if_neg (show ¬ (ndaddr ≤ i.val ∧ _) by omega)]
          simp only [direct,true_and]
        · simp [direct,not_lt.mp direct]
      rw [if_neg Bool.false_ne_true,if_neg Bool.false_ne_true,freeDirect,direct]
      dsimp only
      rw [same]
      rfl

theorem paranoia_same {ip oip : Inode} (same : ip.iAddr = oip.iAddr) : paranoia ip oip = .ok () := by
  simp [paranoia,same]

section
variable {f : File} {others : Multiset Nat} {l : List Nat}

theorem sound_iff : FileData.Sound f others l ↔ BlockMap.Sound f others l ∧ ∀ b, f.volume.failing b = false := by
  constructor
  · intro sound
    have healthy : ∀ b, f.volume.failing b = false := by
      obtain ⟨list,accounted,_⟩ := sound
      exact accounted.healthy
    have same : BlockMap.healed f.volume = f.volume := by
      have failing : f.volume.failing = fun _ => false := funext healthy
      unfold BlockMap.healed
      rw [← failing]
    refine ⟨?_,healthy⟩
    unfold BlockMap.Sound
    rw [same]
    exact sound
  · rintro ⟨⟨list,accounted,same⟩,healthy⟩
    exact ⟨list,{accounted with healthy},same⟩

theorem reached_leafAt (healthy : ∀ b, f.volume.failing b = false) (bn : Nat) :
    BlockMap.reached f bn = leafAt f.volume.disk f.ip.iAddr bn := by
  have seen : indirect.sight f.volume.failing f.volume.disk = f.volume.disk :=
    funext fun b => Lib.Radix.sight_seen (healthy b)
  unfold BlockMap.reached BlockMap.reach leafAt
  rw [seen]

/-- What is done for the last block that stays, if the new end is inside of it: it is
there then, and all of it behind the end is zero. -/
structure Tailed (f f' : File) (bn b : Nat) (others : Multiset Nat) (new : Multiset (Nat × Nat)) (l l' : List Nat) : Prop where
  sound : FileData.Sound f' others l'
  ip : f'.ip = {f.ip with iAddr := f'.ip.iAddr}
  numbered : numberedBlocks f'.volume.disk f'.ip.iAddr = numberedBlocks f.volume.disk f.ip.iAddr + new
  order : ∀ e ∈ new, e.2 ≤ bn
  taken : (l : Multiset Nat) = new.map Prod.fst + (l' : Multiset Nat)
  others : ∀ n < FileData.mapBlocks, n ≠ bn → leafAt f'.volume.disk f'.ip.iAddr n = leafAt f.volume.disk f.ip.iAddr n
  here : leafAt f'.volume.disk f'.ip.iAddr bn = b
  before : leafAt f.volume.disk f.ip.iAddr bn = b ∧ new = 0 ∨ leafAt f.volume.disk f.ip.iAddr bn = 0 ∧ b ∈ l ∧
    f'.volume.disk b = Block.zero
  used : b ≠ 0

theorem storeBlock_shape (sound : FileData.Sound f others l) {bn b : Nat} (there : leafAt f.volume.disk f.ip.iAddr bn = b)
    (used : b ≠ 0) (c : Block) :
    numberedBlocks (update f.volume.disk b c) f.ip.iAddr = numberedBlocks f.volume.disk f.ip.iAddr ∧
      ∀ n, leafAt (update f.volume.disk b c) f.ip.iAddr n = leafAt f.volume.disk f.ip.iAddr n := by
  have distinct := Multiset.nodup_of_le (Multiset.le_add_right _ _) sound.nodup
  rw [FileData.blocksOf_at _ _ (place bn).1,Multiset.nodup_add] at distinct
  obtain ⟨own,_,apart⟩ := distinct
  have member : b ∈ indirect.owned f.volume.disk (level (place bn).1) (f.ip.iAddr (place bn).1) := by
    rw [← there] at used ⊢
    exact Lib.Radix.leaf_mem used
  have beside : ∀ x ∈ FileData.besides f.volume.disk f.ip.iAddr (place bn).1, update f.volume.disk b c x = f.volume.disk x := by
    intro x present
    apply update_of_ne
    rintro rfl
    exact Multiset.disjoint_left.mp apart member present
  obtain ⟨numbers,leaves⟩ := Lib.Radix.store_shape (c := c) own there used
  constructor
  · rw [@BlockMap.numberedBlocks_graft _ _ _ _ _ 0 beside (fun _ _ => rfl) (by rw [numbers,add_zero]),add_zero]
  intro n
  unfold leafAt
  by_cases slot : (place n).1 = (place bn).1
  · rw [slot]
    exact leaves _
  · exact Lib.Radix.leaf_congr fun x present => beside x (FileData.mem_besides slot present)

theorem fill_zero (offset len : Nat) : Block.zero.fill offset len (fun _ => 0) = Block.zero := by
  funext k
  simp [Block.fill,Block.zero]

theorem allocated_spec (sound : FileData.Sound f others l) {bn : Nat} (small : bn < FileData.maxBlocks)
    (space : ∀ r, bmap f bn true true = .ok r → r.answer ≠ .nospace) (offset len : Nat) :
    ∃ f1 b l' new, allocated f bn false = .ok (f1,some b) ∧
      Tailed f (FileData.storeBlock f1 b ((f1.volume.disk b).fill offset len fun _ => 0)) bn b others new l l' := by
  have inside : bn < FileData.mapBlocks := small.trans FileData.maxBlocks_lt
  obtain ⟨sound0,healthy⟩ := sound_iff.mp sound
  obtain ⟨r,l',done,known,failing,ip,sound1,others1,here1,clear1,new,grown,order,taken,kept⟩ :=
    BlockMap.bmap_write sound0 inside true
  have enough := space r done
  have healthy1 : ∀ b, r.file.volume.failing b = false := by
    rw [failing]
    exact healthy
  obtain ⟨f1,answer,ra,flagged⟩ := r
  dsimp only at *
  cases answer with
  | block b =>
    obtain ⟨used,there,before⟩ := here1
    rw [reached_leafAt healthy1] at there
    rw [reached_leafAt healthy] at before kept clear1
    have sound2 := sound_iff.mpr ⟨sound1,healthy1⟩
    obtain ⟨numbers,leaves⟩ := storeBlock_shape sound2 there used ((f1.volume.disk b).fill offset len fun _ => 0)
    obtain ⟨stored,_⟩ := FileData.storeBlock_spec sound2 small there used ((f1.volume.disk b).fill offset len fun _ => 0)
    refine ⟨f1,b,l',new,by simp only [allocated,done]; rfl,stored,ip,numbers.trans grown,order,taken (by simp),
      fun n bound other => ?_,(leaves bn).trans there,?_,used⟩
    · rw [← reached_leafAt healthy,← others1 n bound other,reached_leafAt healthy1]
      exact leaves n
    rcases before with kept' | ⟨hole,free⟩
    · exact .inl ⟨kept',kept (by rwa [kept'])⟩
    refine .inr ⟨hole,free,?_⟩
    have blank := clear1 rfl hole b rfl
    unfold FileData.storeBlock
    dsimp only
    rw [update_self,blank]
    exact fill_zero offset len
  | nospace => exact absurd rfl enough
  | unread =>
    obtain ⟨b,bad⟩ := known
    rw [healthy b] at bad
    cases bad
  | _ => exact absurd known id

theorem mapped_leafAt (healthy : ∀ b, f.volume.failing b = false) (n : Int) (b : Nat) : mapped f n = some b ↔
    0 ≤ n ∧ n < FileData.mapBlocks ∧ leafAt f.volume.disk f.ip.iAddr n.toNat = b ∧ b ≠ 0 := by
  rw [BlockMap.mapped_iff,reached_leafAt healthy]

theorem mapped_congr {f' : File} (healthy : ∀ b, f.volume.failing b = false)
    (healthy' : ∀ b, f'.volume.failing b = false) {n : Int}
    (same : 0 ≤ n → n < FileData.mapBlocks →
      leafAt f'.volume.disk f'.ip.iAddr n.toNat = leafAt f.volume.disk f.ip.iAddr n.toNat) : mapped f' n = mapped f n := by
  refine Option.ext fun b => ?_
  rw [mapped_leafAt healthy',mapped_leafAt healthy]
  constructor
  · rintro ⟨low,high,there,used⟩
    exact ⟨low,high,(same low high).symm.trans there,used⟩
  rintro ⟨low,high,there,used⟩
  exact ⟨low,high,(same low high).trans there,used⟩

theorem shorten_spec (sound : FileData.Sound f others l) {length : Nat} (small : length < 2^31) :
    ∃ f' l', shorten f length = .ok ⟨f',true⟩ ∧ FileData.Sound f' others l' ∧ f'.ip.iSize = length ∧
    (l' : Multiset Nat) = (l : Multiset Nat) +
        ((numberedBlocks f.volume.disk f.ip.iAddr).filter fun e => blocksFor length ≤ e.2).map Prod.fst ∧
      numberedBlocks f'.volume.disk f'.ip.iAddr = (numberedBlocks f.volume.disk f.ip.iAddr).filter (fun e =>
      e.2 < blocksFor length) ∧
      (∀ n < FileData.mapBlocks, leafAt f'.volume.disk f'.ip.iAddr n =
        if n < blocksFor length then leafAt f.volume.disk f.ip.iAddr n else 0) ∧
      ∀ n < FileData.maxBlocks, n < blocksFor length → FileData.blockAt f' n = FileData.blockAt f n := by
  have last : ((blocksFor length : Nat) : Int) - 1 < FileData.maxBlocks := by
    unfold blocksFor FileData.maxBlocks
    omega
  obtain ⟨v',l',cut,sound',given,numbers,leaves,blocks⟩ := FileData.freeBlocks_spec sound last length
  have order : ∀ n : Nat, (n : Int) ≤ ((blocksFor length : Nat) : Int) - 1 ↔ n < blocksFor length := fun n => by omega
  simp only [order] at numbers leaves blocks
  refine ⟨⟨v',{f.ip with iSize := length,iAddr := keptAddr f.ip (((blocksFor length : Nat) : Int) - 1)}⟩,l',?_,sound',
    rfl,?_,numbers,leaves,
    fun n bound below => ?_⟩
  · have whole := freeAll_eq (((blocksFor length : Nat) : Int) - 1) f.ip f.volume
    rw [cut] at whole
    have quiet : paranoia {f.ip with iAddr := keptAddr f.ip (((blocksFor length : Nat) : Int) - 1)}
        {f.ip with iSize := length,iAddr := keptAddr f.ip (((blocksFor length : Nat) : Int) - 1)} = .ok () := paranoia_same rfl
    simp only [shorten,whole,Except.map,lift,bind,Except.bind,quiet]
    rfl
  · have parts := Multiset.filter_add_not (fun e : Nat × Nat => e.2 < blocksFor length) (numberedBlocks f.volume.disk f.ip.iAddr)
    rw [← FileData.numberedBlocks_fst,← FileData.numberedBlocks_fst,numbers] at given
    nth_rewrite 2 [← parts] at given
    rw [Multiset.map_add,add_comm,add_assoc] at given
    rw [add_left_cancel given,add_comm]
    simp only [not_lt]
  · rw [blocks n bound,if_pos below]

theorem blockAt_leafAt {bn b : Nat} (there : leafAt f.volume.disk f.ip.iAddr bn = b) (used : b ≠ 0) :
    FileData.blockAt f bn = f.volume.disk b := by
  unfold leafAt at there
  unfold FileData.blockAt FileData.blockIn Lib.Radix.Layout.contents
  rw [there,if_neg used]

/-- What a truncation does: the blocks behind the new end go to the free list, each
once, and the others stay in their places; a hole at the new end may be filled before
with blocks of the free list. -/
structure Truncates (f f' : File) (length : Nat) (new : Multiset (Nat × Nat)) (l l' : List Nat) : Prop where
  freed : (l' : Multiset Nat) + new.map Prod.fst = (l : Multiset Nat) +
    ((numberedBlocks f.volume.disk f.ip.iAddr).filter fun e => blocksFor length ≤ e.2).map Prod.fst
  kept : numberedBlocks f'.volume.disk f'.ip.iAddr = (numberedBlocks f.volume.disk f.ip.iAddr).filter (fun e =>
    e.2 < blocksFor length) + new
  apart : ∀ b ∈ l', b ∉ blocksOf f'.volume.disk f'.ip.iAddr
  filled : new ≠ 0 → length % 1024 ≠ 0 ∧ mapped f ((length / 1024 : Nat) : Int) = none
  lower : ∀ n : Int, n < (blocksFor length : Nat) → mapped f' n = mapped f n ∨
    n = (length / 1024 : Nat) ∧ length % 1024 ≠ 0 ∧ mapped f n = none ∧ ∃ b ∈ l, mapped f' n = some b ∧
    f'.volume.disk b = Block.zero
  upper : ∀ n : Int, (blocksFor length : Nat) ≤ n → mapped f' n = none

theorem cutOff_spec (sound : FileData.Sound f others l) {error : Bool} {length : Nat} (small : length < 2^31)
    (unset : length % 1024 ≠ 0 → error = false)
    (space : length % 1024 ≠ 0 → ∀ r, bmap f (length / 1024 : Nat) true true = .ok r → r.answer ≠ .nospace) :
    ∃ f' l' new, cutOff f error length = .ok ⟨f',true⟩ ∧ FileData.Sound f' others l' ∧ f'.ip.iSize = length ∧
      Truncates f f' length new l l' := by
  have healthy := (sound_iff.mp sound).2
  have apart : ∀ {g : File} {l' : List Nat}, FileData.Sound g others l' → ∀ b ∈ l', b ∉ blocksOf g.volume.disk g.ip.iAddr :=
    fun tidy b => (sound_iff.mp tidy).1.apart
  by_cases whole : length % 1024 = 0
  · obtain ⟨f',l',done,sound',size,given,numbers,leaves,_⟩ := shorten_spec sound small
    have healthy' := (sound_iff.mp sound').2
    refine ⟨f',l',0,?_,sound',size,?_,?_,apart sound',by simp,fun n below => .inl ?_,fun n above => ?_⟩
    · rw [cutOff,if_neg (by simpa using whole)]
      exact done
    · rw [given,Multiset.map_zero,add_zero]
    · rw [numbers,add_zero]
    · refine mapped_congr healthy healthy' fun low high => ?_
      rw [leaves n.toNat (by omega),if_pos (by omega)]
    · refine Option.eq_none_iff_forall_ne_some.mpr fun b found => ?_
      obtain ⟨low,high,there,used⟩ := (mapped_leafAt healthy' n b).mp found
      rw [leaves n.toNat (by omega),if_neg (by omega)] at there
      exact used there.symm
  have bound : length / 1024 < FileData.maxBlocks := by
    unfold FileData.maxBlocks
    omega
  obtain ⟨f1,b,l1,new,found,tailed⟩ := allocated_spec sound bound (space whole) (length % 1024) (1024 - length % 1024)
  generalize stored : FileData.storeBlock f1 b ((f1.volume.disk b).fill (length % 1024) (1024 - length % 1024)
    fun _ => 0) = f2 at tailed
  obtain ⟨f',l',done,sound',size,given,numbers,leaves,blocks⟩ := shorten_spec tailed.sound small
  have healthy' := (sound_iff.mp sound').2
  have inside : length / 1024 < blocksFor length := by
    unfold blocksFor
    omega
  have wide := bound.trans FileData.maxBlocks_lt
  have low : new.filter (fun e => e.2 < blocksFor length) = new := Multiset.filter_eq_self.mpr fun e member => by
    have order := tailed.order e member
    omega
  have high : new.filter (fun e => blocksFor length ≤ e.2) = 0 := Multiset.filter_eq_nil.mpr fun e member => by
    have order := tailed.order e member
    omega
  have hole : leafAt f.volume.disk f.ip.iAddr (length / 1024) = 0 → mapped f ((length / 1024 : Nat) : Int) = none := by
    intro zero
    refine Option.eq_none_iff_forall_ne_some.mpr fun c found => ?_
    obtain ⟨_,_,there,used⟩ := (mapped_leafAt healthy _ c).mp found
    exact used (there.symm.trans zero)
  refine ⟨f',l',new,?_,sound',size,?_,?_,apart sound',fun more => ⟨whole,?_⟩,fun n below => ?_,fun n above => ?_⟩
  · rw [cutOff,if_pos whole,unset whole,found]
    simp only [bind,Except.bind,stored]
    exact done
  · rw [given,tailed.taken,tailed.numbered,Multiset.filter_add,high,add_zero]
    ac_rfl
  · rw [numbers,tailed.numbered,Multiset.filter_add,low]
  · rcases tailed.before with ⟨_,none⟩ | ⟨zero,_⟩
    · exact absurd none more
    · exact hole zero
  · by_cases here : n = (length / 1024 : Nat)
    · subst here
      have there : mapped f' ((length / 1024 : Nat) : Int) = some b := by
        refine (mapped_leafAt healthy' _ b).mpr ⟨by omega,by omega,?_,tailed.used⟩
        rw [Int.toNat_natCast,leaves _ wide,if_pos inside,tailed.here]
      rcases tailed.before with ⟨kept,_⟩ | ⟨zero,free,blank⟩
      · left
        rw [there]
        exact ((mapped_leafAt healthy ((length / 1024 : Nat) : Int) b).mpr ⟨by omega,by omega,kept,tailed.used⟩).symm
      refine .inr ⟨rfl,whole,hole zero,b,free,there,?_⟩
      have leaf := leaves _ wide
      rw [if_pos inside,tailed.here] at leaf
      rw [← blockAt_leafAt leaf tailed.used,blocks _ bound inside,blockAt_leafAt tailed.here tailed.used]
      exact blank
    · refine .inl (mapped_congr healthy healthy' fun low high => ?_)
      rw [leaves n.toNat (by omega),if_pos (by omega),tailed.others n.toNat (by omega) (by omega)]
  · refine Option.eq_none_iff_forall_ne_some.mpr fun c found => ?_
    obtain ⟨low,high,there,used⟩ := (mapped_leafAt healthy' n c).mp found
    rw [leaves n.toNat (by omega),if_neg (by omega)] at there
    exact used there.symm

/-- A file that is made shorter loses the blocks behind its new end, data and indirect
ones, each of which is free once, and nothing else: the lower blocks are where they were,
no address is left of a free block, and neither panic is reached. -/
theorem truncation_exact (f : File) (others : Multiset Nat) (l : List Nat) (pipe error : Bool) (length : Nat)
    (sound : FileData.Sound f others l) (size : f.ip.iSize < 2^31) (waiting : pipe = true → f.ip.iSize ≤ maxpipsiz)
    (shorter : length < f.ip.iSize) (unset : length % 1024 ≠ 0 → error = false)
    (space : length % 1024 ≠ 0 → ∀ r, bmap (sized f pipe) (length / 1024 : Nat) true true = .ok r → r.answer ≠ .nospace) :
    ∃ f' l' new, itrunc f pipe error length = .ok ⟨f',true⟩ ∧ FileData.Sound f' others l' ∧ f'.ip.iSize = length ∧
      Truncates f f' length new l l' := by
  have less : ¬ (sized f pipe).ip.iSize < length := by
    cases pipe with
    | false => exact not_lt.mpr shorter.le
    | true => exact not_lt.mpr (shorter.le.trans (waiting rfl))
  have other : ¬ (pipe = false ∧ f.ip.iSize = length) := fun both => shorter.ne both.2.symm
  have same : (sized f pipe).volume = f.volume ∧ (sized f pipe).ip.iAddr = f.ip.iAddr := by
    cases pipe <;> exact ⟨rfl,rfl⟩
  have sound0 : FileData.Sound (sized f pipe) others l := by
    unfold FileData.Sound
    rw [same.1,same.2]
    exact sound
  have healthy := (sound_iff.mp sound).2
  have mapping : ∀ n, mapped (sized f pipe) n = mapped f n := fun n =>
    mapped_congr healthy (by rw [same.1]; exact healthy) fun _ _ => by rw [same.1,same.2]
  obtain ⟨f',l',new,done,sound',final,truncates⟩ := cutOff_spec sound0 (by omega) unset space
  refine ⟨f',l',new,?_,sound',final,?_⟩
  · rw [itrunc,if_neg other]
    dsimp only
    rw [if_neg less]
    exact done
  obtain ⟨freed,kept,apart,filled,lower,upper⟩ := truncates
  simp only [mapping] at filled lower
  rw [same.1,same.2] at freed kept
  exact ⟨freed,kept,apart,filled,lower,upper⟩

end

def sparseFile : File := ⟨FreeList.smallVolume,{BlockMap.damagedFile.ip with iSize := 5000}⟩

theorem sparseFile_sound : FileData.Sound sparseFile 0 [7,6] := sound_iff.mpr ⟨BlockMap.damagedFile_sound,fun _ => rfl⟩

theorem truncation_exact_sparseFile : ∃ f' l' new, itrunc sparseFile false false 1000 = .ok ⟨f',true⟩ ∧
    FileData.Sound f' 0 l' ∧ f'.ip.iSize = 1000 ∧ Truncates sparseFile f' 1000 new [7,6] l' := by
  refine truncation_exact sparseFile 0 [7,6] false false 1000 sparseFile_sound (by decide) (by simp) (by decide) (fun _ => rfl)
    fun _ r done => ?_
  have first : bmap (sized sparseFile false) ((1000 / 1024 : Nat) : Int) true true =
    .ok ⟨sparseFile,.block 4,some 0,false⟩ := rfl
  rw [first] at done
  cases done
  simp

end Retrobsd.Truncation

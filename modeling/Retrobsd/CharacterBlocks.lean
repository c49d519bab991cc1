import Retrobsd.CharacterLists
import Retrobsd.Lib.Chains

/-! Where the characters of a list are: from an offset of its first block over
whole blocks to an offset of its last. The blocks of all lists and of `cfreelist`
partition the pool, and an operation on one list leaves the others alone. -/
namespace Retrobsd.CharacterLists
open Lib.Chains List

def advance (next : Nat → Nat) (p : Nat) : Nat :=
  if (p + 1) % 32 = 0 then next (p + 1 - 32) + 4 else p + 1

def chars (next : Nat → Nat) : Nat → Nat → List Nat
  | _,0 => []
  | p,n + 1 => p :: chars next (advance next p) n

/-- The addresses from offset `s` of the first block to offset `e` of the last. -/
def extent : List Nat → Nat → Nat → List Nat
  | [],_,_ => []
  | [b],s,e => List.range' (b + s) (e - s)
  | b :: c :: bs,s,e => List.range' (b + s) (32 - s) ++ extent (c :: bs) 4 e

theorem length_extent : ∀ (bs : List Nat) {s e : Nat}, bs ≠ [] → s ≤ 32 → 4 ≤ e → (bs.length = 1 → s ≤ e) →
    (extent bs s e).length + s + 28 = 28 * bs.length + e
  | [],_,_,nonempty,_,_,_ => absurd rfl nonempty
  | [b],s,e,_,_,_,order => by
    have : s ≤ e := order rfl
    simp only [extent,length_range',length_singleton]
    omega
  | b :: c :: bs,s,e,_,start,stop,_ => by
    have ih := @length_extent (c :: bs) 4 e (by simp) (by omega) stop (fun _ => stop)
    simp only [extent,length_append,length_range',length_cons] at ih ⊢
    omega

variable {b : Nat}

theorem extent_drop {s e n : Nat} {bs : List Nat} (inside : s + n ≤ 32) :
    (extent (b :: bs) s e).drop n = extent (b :: bs) (s + n) e := by
  cases bs with
  | nil =>
    simp only [extent,drop_range']
    congr 1
    · ring
    · omega
  | cons c bs =>
    simp only [extent]
    rw [drop_append_of_le_length (by simp; omega),drop_range']
    congr 2
    · ring
    · omega

theorem extent_take {s e n : Nat} {bs : List Nat} (inside : s + n ≤ 32) (order : bs = [] → s + n ≤ e) :
    (extent (b :: bs) s e).take n = range' (b + s) n := by
  cases bs with
  | nil =>
    have : s + n ≤ e := order rfl
    exact take_range'_of_length_ge (by omega)
  | cons c bs =>
    simp only [extent]
    rw [take_append_of_le_length (by simp; omega)]
    exact take_range'_of_length_ge (by omega)

theorem extent_next (b c e : Nat) (bs : List Nat) : extent (b :: c :: bs) 32 e = extent (c :: bs) 4 e := by
  simp [extent]

theorem extent_grow : ∀ (bs : List Nat) {s z e n : Nat}, bs.getLast? = some z → s ≤ 32 → 4 ≤ e →
    (bs.length = 1 → s ≤ e) → extent bs s (e + n) = extent bs s e ++ range' (z + e) n
  | [],_,_,_,_,last,_,_,_ => by simp at last
  | [b],s,z,e,n,last,_,_,order => by
    have : s ≤ e := order rfl
    obtain rfl : b = z := by simpa using last
    simp only [extent]
    rw [show e + n - s = (e - s) + n by omega,← range'_append]
    congr 2
    omega
  | b :: c :: bs,s,z,e,n,last,start,stop,_ => by
    have ih := @extent_grow (c :: bs) 4 z e n (by simpa using last) (by omega) stop (fun _ => stop)
    simp [extent,ih]

theorem extent_snoc : ∀ (bs : List Nat) (z : Nat) {s e : Nat}, bs ≠ [] →
    extent (bs ++ [z]) s e = extent bs s 32 ++ range' (z + 4) (e - 4)
  | [],_,_,_,nonempty => absurd rfl nonempty
  | [b],z,s,e,_ => by simp [extent]
  | b :: c :: bs,z,s,e,_ => by
    have ih := @extent_snoc (c :: bs) z 4 e (by simp)
    simp only [cons_append] at ih ⊢
    simp [extent,ih]

theorem round_block {off : Nat} (aligned : b % 32 = 0) (inside : off < 32) : round (b + off) = b := by
  unfold round
  omega

theorem mem_extent : ∀ (bs : List Nat) {s e x : Nat}, (∀ b ∈ bs, b % 32 = 0) → 4 ≤ s → e ≤ 32 → x ∈ extent bs s e →
    round x ∈ bs ∧ 4 ≤ x % 32
  | [],_,_,_,_,_,_,member => by simp [extent] at member
  | [b],s,e,x,aligned,start,stop,member => by
    have here := aligned b (by simp)
    simp only [extent,mem_range'_1] at member
    simp only [round,mem_singleton]
    omega
  | b :: c :: bs,s,e,x,aligned,start,stop,member => by
    have here := aligned b (by simp)
    simp only [extent,mem_append,mem_range'_1] at member
    rcases member with inside | later
    · have found : round x = b := by simp only [round]; omega
      exact ⟨by simp [found],by omega⟩
    have ih := mem_extent (c :: bs) (fun b member => aligned b (by simp [member])) (le_refl 4) stop later
    exact ⟨mem_cons_of_mem _ ih.1,ih.2⟩

theorem chars_within (next : Nat → Nat) (aligned : b % 32 = 0) : ∀ {n s : Nat}, s + n ≤ 32 →
    chars next (b + s) n = range' (b + s) n
  | 0,_,_ => rfl
  | 1,_,_ => rfl
  | n + 2,s,inside => by
    have step : advance next (b + s) = b + (s + 1) := by
      unfold advance
      rw [if_neg (by omega)]
      ring
    rw [chars,step,chars_within next aligned (by omega),range'_succ]
    rfl

theorem chars_across (next : Nat → Nat) {m : Nat} (aligned : b % 32 = 0) : ∀ {n s : Nat}, s + (n + 1) = 32 →
    chars next (b + s) (n + 1 + m) = range' (b + s) (n + 1) ++ chars next (next b + 4) m
  | 0,s,inside => by
    have step : advance next (b + s) = next b + 4 := by
      unfold advance
      rw [if_pos (by omega),show b + s + 1 - 32 = b by omega]
    rw [Nat.zero_add,Nat.add_comm 1 m,chars,step]
    rfl
  | n + 1,s,inside => by
    have step : advance next (b + s) = b + (s + 1) := by
      unfold advance
      rw [if_neg (by omega)]
      ring
    rw [show n + 1 + 1 + m = (n + 1 + m) + 1 by ring,chars,step,chars_across next aligned (by omega),range'_succ]
    rfl

theorem chars_extent (next : Nat → Nat) : ∀ (bs : List Nat) {a s e : Nat}, Chain next 0 a bs → bs ≠ [] →
    (∀ b ∈ bs, b % 32 = 0) → s < 32 → e ≤ 32 → chars next (a + s) (extent bs s e).length = extent bs s e
  | [],_,_,_,_,nonempty,_,_,_ => absurd rfl nonempty
  | [b],a,s,e,linked,_,aligned,start,stop => by
    obtain ⟨rfl,-,-⟩ := chain_cons.mp linked
    have within : chars next (a + s) (e - s) = range' (a + s) (e - s) := by
      by_cases order : s ≤ e
      · exact chars_within next (aligned a (by simp)) (by omega)
      rw [show e - s = 0 by omega]
      rfl
    simpa [extent] using within
  | b :: c :: bs,a,s,e,linked,_,aligned,start,stop => by
    obtain ⟨rfl,-,later⟩ := chain_cons.mp linked
    obtain ⟨found,-,-⟩ := chain_cons.mp later
    have ih := @chars_extent next (c :: bs) (next a) 4 e later (by simp) (fun b member =>
      aligned b (mem_cons_of_mem _ member)) (by omega) stop
    simp only [extent,length_append,length_range']
    obtain ⟨n,size⟩ : ∃ n, 32 - s = n + 1 := ⟨31 - s,by omega⟩
    rw [size,chars_across next (aligned a (by simp)) (by omega),ih]

/-- A list of characters that starts in block `a` at offset `s` and ends in block
`z` at offset `e`. -/
structure Fits (next : Nat → Nat) (p : Clist) (bs : List Nat) (a s z e : Nat) : Prop where
  linked : Chain next 0 a bs
  last : bs.getLast? = some z
  front : p.cCf = a + s
  back : p.cCl = z + e
  low : 4 ≤ s
  high : s < 32
  endLow : 4 ≤ e
  endHigh : e ≤ 32
  count : p.cCc + s + 28 = 28 * bs.length + e
  nonneg : 0 ≤ p.cCc

def Queued (next : Nat → Nat) (p : Clist) (bs : List Nat) : Prop :=
  (p = ⟨0,0,0⟩ ∧ bs = []) ∨ ∃ a s z e, Fits next p bs a s z e ∧ 4 < e ∧ 0 < p.cCc

section
variable {next : Nat → Nat} {p : Clist} {bs : List Nat} {a s z e : Nat}

section
variable (fits : Fits next p bs a s z e)
include fits

theorem Fits.nonempty : bs ≠ [] := by
  rintro rfl
  simpa using fits.last

theorem Fits.order : bs.length = 1 → s ≤ e := by
  intro single
  have := fits.count
  have := fits.nonneg
  omega

theorem Fits.head : ∃ rest, bs = a :: rest ∧ Chain next 0 (next a) rest := by
  apply fits.linked.cons_of_ne
  rintro rfl
  exact fits.nonempty fits.linked.nil_of_null

theorem Fits.tail : ∃ init, bs = init ++ [z] := getLast?_eq_some_iff.mp fits.last

theorem Fits.length : ((extent bs s e).length : Int) = p.cCc := by
  have size := @length_extent bs s e fits.nonempty (by have := fits.high; omega) fits.endLow fits.order
  have := fits.count
  omega

theorem Fits.congr {next' : Nat → Nat} (same : ∀ b ∈ bs, next' b = next b) : Fits next' p bs a s z e :=
  {fits with linked := fits.linked.congr same}

theorem Fits.chars (aligned : ∀ b ∈ bs, b % 32 = 0) : chars next p.cCf p.cCc.toNat = extent bs s e := by
  have size := fits.length
  rw [fits.front,show p.cCc.toNat = (extent bs s e).length by omega]
  exact chars_extent next bs fits.linked fits.nonempty aligned fits.high fits.endHigh

end

theorem Queued.congr {next' : Nat → Nat} (queued : Queued next p bs) (same : ∀ b ∈ bs, next' b = next b) :
    Queued next' p bs := by
  rcases queued with cleared | ⟨a,s,z,e,fits,later,filled⟩
  · exact .inl cleared
  · exact .inr ⟨a,s,z,e,fits.congr same,later,filled⟩

theorem Queued.fits (queued : Queued next p bs) (filled : 0 < p.cCc) : ∃ a s z e, Fits next p bs a s z e ∧ 4 < e := by
  rcases queued with ⟨rfl,-⟩ | ⟨a,s,z,e,fits,later,-⟩
  · simp at filled
  · exact ⟨a,s,z,e,fits,later⟩

theorem Queued.cleared (queued : Queued next p bs) (empty : p.cCc ≤ 0) : p = ⟨0,0,0⟩ ∧ bs = [] := by
  rcases queued with cleared | ⟨a,s,z,e,fits,later,filled⟩
  · exact cleared
  · omega

end

section
variable {ι : Type}

/-- Blocks on `cfreelist`, under `none`, and on the lists partition the pool, and
every list but `q` is between operations. -/
structure Others (pool : Pool) (q : ι) (k : Kernel ι) (lists : Option ι → List Nat) : Prop where
  parted : Partition (fun b => pool.block b = true) lists
  spare : Chain k.cNext 0 k.cfreelist (lists none)
  counted : k.cfreecount = 28 * (lists none).length
  queued : ∀ r, r ≠ q → Queued k.cNext (k.clists r) (lists (some r))

structure Laid (pool : Pool) (k : Kernel ι) (lists : Option ι → List Nat) : Prop where
  parted : Partition (fun b => pool.block b = true) lists
  spare : Chain k.cNext 0 k.cfreelist (lists none)
  counted : k.cfreecount = 28 * (lists none).length
  queued : ∀ r, Queued k.cNext (k.clists r) (lists (some r))

def addresses (k : Kernel ι) (q : ι) : List Nat := chars k.cNext (k.clists q).cCf (k.clists q).cCc.toNat

def queue (k : Kernel ι) (q : ι) : List UInt8 := (addresses k q).map k.cInfo

structure Frame (q : ι) (k : Kernel ι) (lists : Option ι → List Nat) (k' : Kernel ι) (lists' : Option ι → List Nat) : Prop where
  sameClist : ∀ r, r ≠ q → k'.clists r = k.clists r
  sameBlocks : ∀ r, r ≠ q → lists' (some r) = lists (some r)
  sameInfo : ∀ r, r ≠ q → ∀ x, round x ∈ lists (some r) → k'.cInfo x = k.cInfo x

def regroup [DecidableEq ι] (lists : Option ι → List Nat) (q : ι) (free bs : List Nat) : Option ι → List Nat
  | none => free
  | some r => if r = q then bs else lists (some r)

variable {pool : Pool} {q : ι} {k k' k'' : Kernel ι} {lists lists' lists'' : Option ι → List Nat} {free bs : List Nat}

@[simp] theorem regroup_none [DecidableEq ι] : regroup lists q free bs none = free := rfl

@[simp] theorem regroup_self [DecidableEq ι] : regroup lists q free bs (some q) = bs := by simp [regroup]

theorem regroup_other [DecidableEq ι] {r : ι} (other : r ≠ q) : regroup lists q free bs (some r) = lists (some r) := by
  simp [regroup,other]

@[simp] theorem set_self [DecidableEq ι] (p : Clist) : (k.set q p).clists q = p := by simp [Kernel.set]

theorem set_other [DecidableEq ι] {r : ι} (p : Clist) (other : r ≠ q) : (k.set q p).clists r = k.clists r := by
  simp [Kernel.set,other]

@[simp] theorem set_cNext [DecidableEq ι] (p : Clist) : (k.set q p).cNext = k.cNext := rfl

@[simp] theorem set_cInfo [DecidableEq ι] (p : Clist) : (k.set q p).cInfo = k.cInfo := rfl

@[simp] theorem set_cfreelist [DecidableEq ι] (p : Clist) : (k.set q p).cfreelist = k.cfreelist := rfl

@[simp] theorem set_cfreecount [DecidableEq ι] (p : Clist) : (k.set q p).cfreecount = k.cfreecount := rfl

theorem Frame.refl (q : ι) (k : Kernel ι) (lists : Option ι → List Nat) : Frame q k lists k lists :=
  ⟨fun _ _ => rfl,fun _ _ => rfl,fun _ _ _ _ => rfl⟩

theorem Frame.trans (first : Frame q k lists k' lists') (second : Frame q k' lists' k'' lists'') :
    Frame q k lists k'' lists'' where
  sameClist r other := (second.sameClist r other).trans (first.sameClist r other)
  sameBlocks r other := (second.sameBlocks r other).trans (first.sameBlocks r other)
  sameInfo r other x inside := by
    rw [second.sameInfo r other x (by rw [first.sameBlocks r other]; exact inside)]
    exact first.sameInfo r other x inside

theorem Frame.set [DecidableEq ι] (frame : Frame q k lists k' lists') (p : Clist) : Frame q k lists (k'.set q p) lists' :=
  {frame with sameClist := fun r other => (set_other p other).trans (frame.sameClist r other)}

theorem frame_regroup [DecidableEq ι] {k' : Kernel ι} (clists : ∀ r, r ≠ q → k'.clists r = k.clists r)
    (info : k'.cInfo = k.cInfo) :
    Frame q k lists k' (regroup lists q free bs) :=
  ⟨clists,fun _ other => regroup_other other,fun _ _ _ _ => by rw [info]⟩

theorem Laid.others (laid : Laid pool k lists) (q : ι) : Others pool q k lists := {laid with queued := fun r _ => laid.queued r}

theorem Others.laid [DecidableEq ι] (others : Others pool q k lists) (queued : Queued k.cNext (k.clists q) (lists (some q))) :
    Laid pool k lists where
  parted := others.parted
  spare := others.spare
  counted := others.counted
  queued r := by
    by_cases same : r = q
    · exact same ▸ queued
    · exact others.queued r same

theorem Others.set [DecidableEq ι] (others : Others pool q k lists) (p : Clist) : Others pool q (k.set q p) lists where
  parted := others.parted
  spare := others.spare
  counted := others.counted
  queued r other := by
    rw [set_other p other]
    exact others.queued r other

theorem block_aligned (inside : pool.block b = true) : b % 32 = 0 := by
  simp only [Pool.block,Bool.and_eq_true,beq_iff_eq] at inside
  exact inside.1.1

theorem block_pos (inside : pool.block b = true) : 0 < b := by
  simp only [Pool.block,Bool.and_eq_true,decide_eq_true_eq] at inside
  exact pool.placed.trans_le inside.1.2

theorem Others.block (others : Others pool q k lists) {i : Option ι} (member : b ∈ lists i) : pool.block b = true :=
  others.parted.mem_pool member

theorem Others.aligned (others : Others pool q k lists) (i : Option ι) : ∀ b ∈ lists i, b % 32 = 0 :=
  fun _ member => block_aligned (others.block member)

theorem Laid.aligned (laid : Laid pool k lists) (i : Option ι) : ∀ b ∈ lists i, b % 32 = 0 :=
  fun _ member => block_aligned (laid.parted.mem_pool member)

theorem addresses_fits {a s z e : Nat} (aligned : ∀ b ∈ bs, b % 32 = 0)
    (fits : Fits k.cNext (k.clists q) bs a s z e) : addresses k q = extent bs s e :=
  fits.chars aligned

theorem Laid.length_addresses (laid : Laid pool k lists) (q : ι) : ((addresses k q).length : Int) = (k.clists q).cCc := by
  rcases laid.queued q with ⟨cleared,-⟩ | ⟨a,s,z,e,fits,-,-⟩
  · simp [addresses,cleared,chars]
  rw [addresses_fits (laid.aligned _) fits]
  exact fits.length

theorem Laid.length_queue (laid : Laid pool k lists) (q : ι) : ((queue k q).length : Int) = (k.clists q).cCc := by
  rw [queue,length_map]
  exact laid.length_addresses q

theorem Laid.mem_addresses (laid : Laid pool k lists) {x : Nat} (member : x ∈ addresses k q) :
    round x ∈ lists (some q) ∧ 4 ≤ x % 32 := by
  rcases laid.queued q with ⟨cleared,-⟩ | ⟨a,s,z,e,fits,-,-⟩
  · simp [addresses,cleared,chars] at member
  rw [addresses_fits (laid.aligned _) fits] at member
  exact mem_extent _ (laid.aligned _) fits.low fits.endHigh member

theorem addresses_congr {next : Nat → Nat} {p : Clist} (aligned : ∀ b ∈ bs, b % 32 = 0)
    (before : Queued k.cNext p bs) (after : Queued next p bs) :
    chars next p.cCf p.cCc.toNat = chars k.cNext p.cCf p.cCc.toNat := by
  rcases before with ⟨rfl,-⟩ | ⟨a,s,z,e,fits,-,filled⟩
  · rfl
  obtain ⟨a',s',z',e',fits',-⟩ := after.fits filled
  have first : a' = a := by
    obtain ⟨rest,shape,-⟩ := fits.head
    obtain ⟨rest',shape',-⟩ := fits'.head
    rw [shape] at shape'
    exact (cons.inj shape').1.symm
  have final : z' = z := Option.some.inj (fits'.last.symm.trans fits.last)
  have start : s' = s := by have := fits.front; have := fits'.front; omega
  have stop : e' = e := by have := fits.back; have := fits'.back; omega
  rw [fits.chars aligned,fits'.chars aligned,start,stop]

theorem Frame.addresses (frame : Frame q k lists k' lists') (before : Laid pool k lists) (after : Laid pool k' lists')
    {r : ι} (other : r ≠ q) : addresses k' r = addresses k r := by
  have later := after.queued r
  rw [frame.sameClist r other,frame.sameBlocks r other] at later
  simp only [CharacterLists.addresses,frame.sameClist r other]
  exact addresses_congr (before.aligned _) (before.queued r) later

theorem Frame.queue (frame : Frame q k lists k' lists') (before : Laid pool k lists) (after : Laid pool k' lists')
    {r : ι} (other : r ≠ q) : queue k' r = queue k r := by
  simp only [CharacterLists.queue,frame.addresses before after other]
  apply map_congr_left
  intro x member
  exact frame.sameInfo r other x (before.mem_addresses member).1

end

end Retrobsd.CharacterLists

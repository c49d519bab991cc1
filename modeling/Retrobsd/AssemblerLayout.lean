import Retrobsd.AssemblerPass
import Retrobsd.Lib.Hoare

/-! The bytes that the items of a segment stand for, and what `pass1` keeps of its files, its
counters and its buffer. -/
namespace Retrobsd.Assembler
open List BitVec
open Function
open Relocations (Word Byte Reloc)

section

def word (w : Word) : List Byte := Relocations.fputword w

@[simp] theorem word_length (w : Word) : (word w).length = 4 := rfl

@[simp] theorem zeros_length (n : Nat) : (zeros n).length = n := length_replicate

theorem zeros_append (m n : Nat) : zeros m ++ zeros n = zeros (m + n) := replicate_append_replicate

theorem word_zero : word 0 = zeros 4 := rfl

theorem aligned_iff (w : Word) : w &&& 3 = 0 ↔ w.toNat % 4 = 0 := by
  have low : (w &&& 3).toNat = w.toNat % 4 := (toNat_and w 3).trans (Nat.and_two_pow_sub_one_eq_mod _ 2)
  rw [← low]
  exact ⟨fun zero => by rw [zero]; rfl,fun zero => eq_of_toNat_eq zero⟩

/-- The bytes of the items of one segment. A branch and its delay slot are one unit: the slot holds
the instruction before the branch, or a `nop`. -/
def arrange : List Item → List Byte
  | [] => []
  | .code w :: .branch b true :: rest => word b ++ word w ++ arrange rest
  | .code w :: rest => word w ++ arrange rest
  | .branch b _ :: rest => word b ++ word 0 ++ arrange rest
  | .label _ :: rest => arrange rest
  | .data bytes :: rest => bytes ++ arrange rest
  | .pad n :: rest => zeros n ++ arrange rest

def Item.swaps : Item → Bool
  | .branch _ true => true
  | _ => false

def Item.isLabel : Item → Bool
  | .label _ => true
  | _ => false

def Item.isCode : Item → Bool
  | .code _ => true
  | _ => false

theorem arrange_code {w : Word} {rest : List Item} (plain : ∀ x ∈ rest.head?, x.swaps = false) :
    arrange (.code w :: rest) = word w ++ arrange rest := by
  rcases rest with _ | ⟨x,rest⟩
  · rfl
  have apart := plain x rfl
  rcases x with v | v | ⟨b,_ | _⟩ | bytes | n
  · rfl
  · rfl
  · rfl
  · cases apart
  · rfl
  · rfl

theorem arrange_append (items : List Item) {rest : List Item} (plain : ∀ x ∈ rest.head?, x.swaps = false) :
    arrange (items ++ rest) = arrange items ++ arrange rest := by
  induction items using arrange.induct with
  | case1 => rfl
  | case2 w b items ih =>
    rw [List.cons_append,List.cons_append,arrange,arrange,ih]
    simp
  | case3 w items apart ih =>
    have first : ∀ x ∈ items.head?, x.swaps = false := by
      intro x head
      cases items with
      | nil => cases head
      | cons y ys =>
        cases head
        rcases x with v | v | ⟨b,_ | _⟩ | bytes | n
        · rfl
        · rfl
        · rfl
        · exact (apart b ys rfl).elim
        · rfl
        · rfl
    have both : ∀ x ∈ (items ++ rest).head?, x.swaps = false := by
      cases items with
      | nil => exact plain
      | cons y ys => exact first
    rw [List.cons_append,arrange_code both,arrange_code first,ih,List.append_assoc]
  | case4 b s items ih =>
    rw [List.cons_append,arrange,arrange,ih]
    simp
  | case5 v items ih =>
    rw [List.cons_append,arrange,arrange,ih]
  | case6 bytes items ih =>
    rw [List.cons_append,arrange,arrange,ih,List.append_assoc]
  | case7 n items ih =>
    rw [List.cons_append,arrange,arrange,ih,List.append_assoc]

variable {x : Item} {items : List Item}

theorem arrange_snoc (items : List Item) (plain : x.swaps = false) : arrange (items ++ [x]) = arrange items ++ arrange [x] :=
  arrange_append items fun _ head => by
    cases head
    exact plain

theorem arrange_swap (items : List Item) (w b : Word) :
    arrange (items ++ [.code w] ++ [.branch b true]) = arrange items ++ (word b ++ word w) := by
  rw [List.append_assoc]
  exact (arrange_append items fun _ head => by cases head; rfl).trans (by simp [arrange])

/-- Every label has the place of the next item of its segment, and what is put in for its alignment
does not come in between. -/
def Straight (items : List Item) : Prop :=
    ∀ before v after, items = before ++ .label v :: after → v = BitVec.ofNat 32 (arrange before).length ∧
    ∀ n rest, after.dropWhile Item.isLabel ≠ .pad n :: rest

theorem straight_nil : Straight [] := fun _ _ _ split => by simp at split

theorem split_snoc {before after : List Item} {v : Word} (other : x.isLabel = false)
    (split : items ++ [x] = before ++ .label v :: after) : ∃ after', after = after' ++ [x] ∧
    items = before ++ .label v :: after' := by
  rcases eq_nil_or_concat after with rfl | ⟨after',y,rfl⟩
  · have last := congrArg getLast? split
    rw [getLast?_concat,getLast?_concat] at last
    cases last
    cases other
  · rw [List.concat_eq_append,← List.cons_append,← List.append_assoc] at split
    obtain ⟨whole,rfl⟩ := append_inj' split rfl |>.imp_right (cons.inj · |>.1)
    exact ⟨after',concat_eq_append,whole⟩

theorem Straight.snoc (straight : Straight items) (other : x.isLabel = false)
    (pads : ∀ n, x = .pad n → ∀ y ∈ items.getLast?, y.isLabel = false) : Straight (items ++ [x]) := by
  intro before v after split
  obtain ⟨after',rfl,whole⟩ := split_snoc other split
  obtain ⟨place,apart⟩ := straight before v after' whole
  refine ⟨place,fun n rest first => ?_⟩
  by_cases labels : after'.all Item.isLabel
  · rw [dropWhile_append_of_pos (by simpa using labels),dropWhile_cons_of_neg (by simp [other])] at first
    cases first
    have last : ∀ y ∈ items.getLast?, y.isLabel = true := by
      intro y member
      rw [whole] at member
      rcases eq_nil_or_concat after' with rfl | ⟨more,z,rfl⟩
      · rw [getLast?_concat] at member
        cases member
        rfl
      rw [List.concat_eq_append,← List.cons_append,← List.append_assoc,List.getLast?_concat] at member
      cases member
      simp at labels
      exact labels.2
    rcases found : items.getLast? with _ | y
    · rw [getLast?_eq_none_iff] at found
      rw [found] at whole
      simp at whole
    have bad := pads n rfl y found
    rw [last y found] at bad
    cases bad
  · have kept : after'.dropWhile Item.isLabel ≠ [] := by
      intro none
      rw [dropWhile_eq_nil_iff] at none
      exact labels (all_eq_true.mpr none)
    obtain ⟨y,ys,shape⟩ := exists_cons_of_ne_nil kept
    have more : (after' ++ [x]).dropWhile Item.isLabel = y :: (ys ++ [x]) := by
      rw [dropWhile_append,shape]
      rfl
    rw [more] at first
    cases first
    exact apart n ys shape

theorem Straight.label (straight : Straight items) {v : Word} (place : v = BitVec.ofNat 32 (arrange items).length) :
    Straight (items ++ [.label v]) := by
  intro before u after split
  rcases eq_nil_or_concat after with rfl | ⟨after',y,rfl⟩
  · obtain ⟨rfl,same⟩ := append_inj' split rfl
    cases same
    exact ⟨place,fun _ _ bad => (nomatch bad)⟩
  rw [List.concat_eq_append,← List.cons_append,← List.append_assoc] at split
  obtain ⟨rfl,same⟩ := List.append_inj' split rfl
  obtain rfl : Item.label v = y := (List.cons.inj same).1
  obtain ⟨there,apart⟩ := straight before u after' rfl
  refine ⟨there,fun n rest first => ?_⟩
  rw [concat_eq_append,dropWhile_append] at first
  split at first
  · cases first
  next more =>
    have kept : after'.dropWhile Item.isLabel ≠ [] := fun none => more (by rw [none]; rfl)
    obtain ⟨z,zs,shape⟩ := exists_cons_of_ne_nil kept
    rw [shape] at first
    cases first
    exact apart n zs shape

/-- Every label has the place of the next item of its segment. Only what ends the segment may have
been put in between. -/
def Placed (items : List Item) : Prop :=
    ∀ before v after, items = before ++ .label v :: after → v = BitVec.ofNat 32 (arrange before).length ∧
    ∀ n rest, after.dropWhile Item.isLabel = .pad n :: rest → rest = []

theorem Straight.placed (straight : Straight items) : Placed items := fun before v after split =>
  ⟨(straight before v after split).1,fun n rest first => absurd first ((straight before v after split).2 n rest)⟩

theorem Straight.ended (straight : Straight items) (n : Nat) : Placed (items ++ [.pad n]) := by
  intro before v after split
  obtain ⟨after',rfl,whole⟩ := split_snoc rfl split
  obtain ⟨place,apart⟩ := straight before v after' whole
  refine ⟨place,fun m rest first => ?_⟩
  rw [dropWhile_append] at first
  split at first
  · cases first
    rfl
  next more =>
    have kept : after'.dropWhile Item.isLabel ≠ [] := fun none => more (by rw [none]; rfl)
    obtain ⟨y,ys,shape⟩ := exists_cons_of_ne_nil kept
    rw [shape] at first
    cases first
    exact absurd shape (apart m ys)

end

section
variable {a : Asm}

def Asm.layout (a : Asm) (s : Segment) : List Item := (a.items.filter (·.1 == s)).map Prod.snd

def Asm.pending (a : Asm) (s : Segment) : List Byte :=
  match a.buffer with
  | some b => if s = .text then word b.word else []
  | none => []

def Asm.pendingRecords (a : Asm) (s : Segment) : Nat := if s = .text ∧ a.buffer.isSome then 1 else 0

structure Booked (a : Asm) : Prop where
  written : ∀ s, s.filed = true → a.sfile s ++ a.pending s = arrange (a.layout s)
  counted : ∀ s, a.count s = BitVec.ofNat 32 (arrange (a.layout s)).length
  recorded : ∀ s, s.filed = true → (a.rfile s).length + a.pendingRecords s = (arrange (a.layout s)).length / 4

/-- What `pass1` keeps. The buffer is only used in `.text`; it holds the last item if that is an
instruction, and a word that is not at its place is zero. -/
structure Inv (a : Asm) : Prop extends Booked a where
  here : a.segm.filed = true ∨ a.segm = .bss
  straight : ∀ s, Straight (a.layout s)
  held : ∀ b, a.buffer = some b → a.segm = .text ∧ a.modeReorder = true ∧
    (a.count .text &&& 3 = 0 ∧ (∀ items w, a.layout .text = items ++ [.code w] → w = b.word) ∨
      b.word = 0 ∧ ∀ items w, a.layout .text ≠ items ++ [.code w])

def Asm.notes (a : Asm) (x : Item) : Asm := {a with items := a.items ++ [(a.segm,x)]}

theorem layout_notes (a : Asm) (x : Item) (s : Segment) :
    (a.notes x).layout s = if s = a.segm then a.layout s ++ [x] else a.layout s := by
  simp only [Asm.layout,Asm.notes,filter_append,map_append]
  split
  next same =>
    rw [same]
    simp
  next other =>
    have apart : (a.segm == s) = false := by simpa using fun same => other same.symm
    simp [apart]

def Asm.adds (a : Asm) (x : Item) (rs : List Reloc) : Asm := {a.notes x with
    sfile := if a.segm.filed then update a.sfile a.segm (a.sfile a.segm ++ arrange [x]) else a.sfile
    rfile := if a.segm.filed then update a.rfile a.segm (a.rfile a.segm ++ rs) else a.rfile
    count := update a.count a.segm (a.count a.segm + BitVec.ofNat 32 (arrange [x]).length)}

def Asm.holds (a : Asm) (b : Buffered) (x : Item) : Asm :=
    {a.notes x with buffer := some b,count := update a.count a.segm (a.count a.segm + 4)}

def Asm.swapped (a : Asm) (b : Buffered) (w : Word) (r : Reloc) : Asm := {a.notes (.branch w true) with
    sfile := update a.sfile a.segm (a.sfile a.segm ++ word w ++ word b.word)
    rfile := update a.rfile a.segm (a.rfile a.segm ++ [r] ++ [b.rel])
    count := update a.count a.segm (a.count a.segm + 4)
    buffer := none}

def Asm.flushed (a : Asm) : Asm :=
  match a.buffer with
  | none => a
  | some b =>
    {a with
      sfile := update a.sfile a.segm (a.sfile a.segm ++ word b.word)
      rfile := update a.rfile a.segm (a.rfile a.segm ++ [b.rel])
      buffer := none}

theorem pending_none (idle : a.buffer = none) (s : Segment) : a.pending s = [] := by
  rw [Asm.pending,idle]

theorem pendingRecords_none (idle : a.buffer = none) (s : Segment) : a.pendingRecords s = 0 := by
  rw [Asm.pendingRecords,idle]
  simp

theorem flushed_idle (a : Asm) : a.flushed.buffer = none := by
  rw [Asm.flushed]
  split
  next idle => exact idle
  next => rfl

theorem Inv.flushed (inv : Inv a) : Inv a.flushed := by
  rw [Asm.flushed]
  split
  next => exact inv
  next b full =>
    obtain ⟨segm,_,_⟩ := inv.held b full
    have pending : ∀ s, a.pending s = if s = .text then word b.word else [] := by
      intro s
      rw [Asm.pending,full]
    refine ⟨⟨fun s filed => ?_,inv.counted,fun s filed => ?_⟩,inv.here,inv.straight,fun c bad => (nomatch bad)⟩
    · have before := inv.written s filed
      rw [pending] at before
      change update a.sfile a.segm (a.sfile a.segm ++ word b.word) s ++ [] = arrange (a.layout s)
      rw [segm,append_nil,← before]
      by_cases same : s = .text
      · rw [same,update_self,if_pos rfl]
      · rw [update_of_ne same,if_neg same,append_nil]
    have before := inv.recorded s filed
    rw [Asm.pendingRecords,full] at before
    change (update a.rfile a.segm (a.rfile a.segm ++ [b.rel]) s).length + _ = (arrange (a.layout s)).length / 4
    rw [segm,← before,pendingRecords_none rfl]
    by_cases same : s = .text
    · rw [same,update_self]
      simp
    rw [update_of_ne same]
    simp [same]

theorem layout_other {s : Segment} (x : Item) (other : s ≠ a.segm) : (a.notes x).layout s = a.layout s := by
  rw [layout_notes,if_neg other]

theorem layout_self (a : Asm) (x : Item) : (a.notes x).layout a.segm = a.layout a.segm ++ [x] := by
  rw [layout_notes,if_pos rfl]

theorem straight_notes (inv : Inv a) {x : Item} (other : x.isLabel = false)
    (pads : ∀ n, x = .pad n → ∀ y ∈ (a.layout a.segm).getLast?, y.isLabel = false) (s : Segment) :
    Straight ((a.notes x).layout s) := by
  rw [layout_notes]
  split
  next same =>
    subst same
    exact (inv.straight a.segm).snoc other pads
  next => exact inv.straight s

theorem Booked.adds (booked : Booked a) {x : Item} (rs : List Reloc) (plain : x.swaps = false)
    (idle : a.buffer = none ∨ ∃ b n, a.buffer = some b ∧ b.word = 0 ∧ x = .pad n)
    (records : a.segm.filed = true → (arrange (a.layout a.segm)).length / 4 + rs.length =
      ((arrange (a.layout a.segm)).length + (arrange [x]).length) / 4) : Booked (a.adds x rs) := by
  have layout : ∀ s, (a.adds x rs).layout s = (a.notes x).layout s := fun _ => rfl
  have pending : ∀ s, (a.adds x rs).pending s = a.pending s := fun _ => rfl
  have commute : arrange [x] ++ a.pending a.segm = a.pending a.segm ++ arrange [x] := by
    rcases idle with idle | ⟨b,n,full,zero,rfl⟩
    · rw [pending_none idle,append_nil,nil_append]
    rw [Asm.pending,full]
    dsimp only
    rw [zero,word_zero]
    split
    · change zeros n ++ [] ++ zeros 4 = zeros 4 ++ (zeros n ++ [])
      rw [append_nil,zeros_append,zeros_append,Nat.add_comm]
    · rw [append_nil,nil_append]
  refine ⟨fun s filed => ?_,fun s => ?_,fun s filed => ?_⟩
  · rw [layout,pending]
    by_cases same : s = a.segm
    · subst same
      have sfile : (a.adds x rs).sfile a.segm = a.sfile a.segm ++ arrange [x] := by
        simp only [Asm.adds,if_pos filed,update_self]
      rw [sfile,layout_self,arrange_snoc _ plain,← booked.written _ filed,List.append_assoc,commute,List.append_assoc]
    have sfile : (a.adds x rs).sfile s = a.sfile s := by
      simp only [Asm.adds]
      split
      · exact update_of_ne same _ _
      · rfl
    rw [sfile,layout_other x same]
    exact booked.written s filed
  · rw [layout]
    by_cases same : s = a.segm
    · subst same
      rw [layout_self,arrange_snoc _ plain,length_append,ofNat_add,← booked.counted]
      exact update_self _ _ _
    · rw [layout_other x same,← booked.counted]
      exact update_of_ne same _ _
  · have same' : (a.adds x rs).pendingRecords s = a.pendingRecords s := rfl
    rw [layout,same']
    have before := booked.recorded s filed
    by_cases same : s = a.segm
    · subst same
      have rfile : (a.adds x rs).rfile a.segm = a.rfile a.segm ++ rs := by
        simp only [Asm.adds,if_pos filed,update_self]
      rw [rfile,layout_self,arrange_snoc _ plain,length_append,length_append,← records filed]
      omega
    have rfile : (a.adds x rs).rfile s = a.rfile s := by
      simp only [Asm.adds]
      split
      · exact update_of_ne same _ _
      · rfl
    rw [rfile,layout_other x same]
    exact before

theorem Inv.adds (inv : Inv a) {x : Item} (rs : List Reloc) (plain : x.swaps = false) (other : x.isLabel = false)
    (pads : ∀ n, x = .pad n → ∀ y ∈ (a.layout a.segm).getLast?, y.isLabel = false)
    (idle : a.buffer = none ∨ ∃ b n, a.buffer = some b ∧ b.word = 0 ∧ x = .pad n)
    (records : a.segm.filed = true → (arrange (a.layout a.segm)).length / 4 + rs.length =
      ((arrange (a.layout a.segm)).length + (arrange [x]).length) / 4) : Inv (a.adds x rs) := by
  have layout : ∀ s, (a.adds x rs).layout s = (a.notes x).layout s := fun _ => rfl
  refine ⟨inv.toBooked.adds rs plain idle records,inv.here,fun s => ?_,fun b full => ?_⟩
  · rw [layout]
    exact straight_notes inv other pads s
  change a.buffer = some b at full
  rcases idle with idle | ⟨c,n,held,zero,rfl⟩
  · rw [idle] at full
    cases full
  obtain rfl : c = b := Option.some.inj (held.symm.trans full)
  obtain ⟨segm,mode,_⟩ := inv.held c full
  refine ⟨segm,mode,.inr ⟨zero,fun items w last => ?_⟩⟩
  rw [layout,← segm,layout_self] at last
  cases (append_inj' last rfl).2

theorem Inv.holds (inv : Inv a) {b : Buffered} {x : Item} (plain : x.swaps = false) (other : x.isLabel = false)
    (bytes : arrange [x] = word b.word) (pads : ∀ n, x ≠ .pad n) (idle : a.buffer = none) (segm : a.segm = .text)
    (mode : a.modeReorder = true) (code : a.count .text &&& 3 = 0 ∧ (∀ w, x = .code w → w = b.word) ∨
    b.word = 0 ∧ ∀ w, x ≠ .code w) :
    Inv (a.holds b x) := by
  have layout : ∀ s, (a.holds b x).layout s = (a.notes x).layout s := fun _ => rfl
  have pending : ∀ s, (a.holds b x).pending s = if s = .text then word b.word else [] := fun _ => rfl
  refine ⟨⟨fun s filed => ?_,fun s => ?_,fun s filed => ?_⟩,inv.here,fun s => ?_,fun c full => ?_⟩
  · have before := inv.written s filed
    rw [pending_none idle,append_nil] at before
    change a.sfile s ++ _ = _
    rw [layout,pending,before]
    by_cases same : s = a.segm
    · subst same
      rw [layout_self,arrange_snoc _ plain,if_pos segm,bytes]
    · rw [layout_other x same,if_neg (segm ▸ same),append_nil]
  · rw [layout]
    by_cases same : s = a.segm
    · subst same
      rw [layout_self,arrange_snoc _ plain,length_append,ofNat_add,← inv.counted,bytes]
      exact update_self _ _ _
    · rw [layout_other x same,← inv.counted]
      exact update_of_ne same _ _
  · have before := inv.recorded s filed
    rw [pendingRecords_none idle] at before
    have records : (a.holds b x).pendingRecords s = if s = .text then 1 else 0 := by
      simp [Asm.pendingRecords,Asm.holds]
    change (a.rfile s).length + _ = _
    rw [layout,records]
    by_cases same : s = a.segm
    · subst same
      rw [layout_self,arrange_snoc _ plain,if_pos segm,bytes,length_append,word_length]
      omega
    · rw [layout_other x same,if_neg (segm ▸ same)]
      exact before
  · rw [layout]
    exact straight_notes inv other (fun n bad => absurd bad (pads n)) s
  · obtain rfl : b = c := Option.some.inj full
    have lasts : ∀ items w, (a.holds b x).layout .text = items ++ [.code w] → x = .code w := by
      intro items w last
      rw [layout,← segm,layout_self] at last
      exact (cons.inj (append_inj' last rfl).2).1
    refine ⟨segm,mode,?_⟩
    rcases code with ⟨aligned,code⟩ | ⟨zero,code⟩
    · left
      refine ⟨?_,fun items w last => code w (lasts items w last)⟩
      have next : (a.holds b x).count .text = a.count .text + 4 := by
        rw [← segm]
        exact update_self _ _ _
      rw [next]
      rw [aligned_iff] at aligned ⊢
      bv_omega
    · exact .inr ⟨zero,fun items w last => code w (lasts items w last)⟩

theorem Inv.swapped (inv : Inv a) {b : Buffered} (full : a.buffer = some b) {w v : Word} {r : Reloc} {items : List Item}
    (last : a.layout .text = items ++ [.code v]) : Inv (a.swapped b w r) := by
  obtain ⟨segm,_,code⟩ := inv.held b full
  obtain rfl : v = b.word := by
    rcases code with ⟨_,code⟩ | ⟨_,never⟩
    · exact code items v last
    · exact absurd last (never items v)
  have layout : ∀ s, (a.swapped b w r).layout s = (a.notes (.branch w true)).layout s := fun _ => rfl
  have arranged : arrange ((a.notes (.branch w true)).layout a.segm) = arrange items ++ (word w ++ word b.word) := by
    rw [layout_self,segm,last]
    exact arrange_swap items b.word w
  have before : arrange (a.layout a.segm) = arrange items ++ word b.word := by
    rw [segm,last,arrange_snoc _ rfl]
    simp [arrange]
  have filed : a.segm.filed = true := by rw [segm]; rfl
  have pending : a.pending a.segm = word b.word := by
    rw [Asm.pending,full]
    exact if_pos segm
  have sfile : a.sfile a.segm = arrange items := by
    have written := inv.written _ filed
    rw [pending,before] at written
    exact append_cancel_right written
  refine ⟨⟨fun s filed => ?_,fun s => ?_,fun s filed => ?_⟩,inv.here,fun s => ?_,fun c bad => (nomatch bad)⟩
  · rw [pending_none rfl,append_nil,layout]
    by_cases same : s = a.segm
    · subst same
      rw [arranged,← sfile,← List.append_assoc]
      exact update_self _ _ _
    have written := inv.written s filed
    rw [layout_other _ same,← written]
    have none : a.pending s = [] := by
      rw [Asm.pending,full]
      exact if_neg (segm ▸ same)
    rw [none,append_nil]
    exact update_of_ne same _ _
  · rw [layout]
    by_cases same : s = a.segm
    · subst same
      have counted := inv.counted a.segm
      rw [before] at counted
      rw [arranged,← List.append_assoc,List.length_append,BitVec.ofNat_add]
      have four : BitVec.ofNat 32 (word b.word).length = 4 := rfl
      rw [four]
      have sizes : (arrange items ++ word w).length = (arrange items ++ word b.word).length := by simp
      rw [sizes,← counted]
      exact update_self _ _ _
    · rw [layout_other _ same,← inv.counted]
      exact update_of_ne same _ _
  · have recorded := inv.recorded s filed
    rw [layout,pendingRecords_none rfl]
    by_cases same : s = a.segm
    · subst same
      have one : a.pendingRecords a.segm = 1 := by
        rw [Asm.pendingRecords,full]
        exact if_pos ⟨segm,rfl⟩
      have rfile : (a.swapped b w r).rfile a.segm = a.rfile a.segm ++ [r] ++ [b.rel] := update_self _ _ _
      rw [before,one,length_append,word_length] at recorded
      rw [rfile,arranged]
      simp only [length_append,length_singleton,word_length]
      omega
    · have none : a.pendingRecords s = 0 := if_neg fun both => (segm ▸ same) both.1
      have rfile : (a.swapped b w r).rfile s = a.rfile s := update_of_ne same _ _
      rw [none] at recorded
      rw [rfile,layout_other _ same]
      exact recorded
  · rw [layout]
    exact straight_notes inv rfl (fun n bad => by cases bad) s

theorem Inv.labels (inv : Inv a) (idle : a.buffer = none) : Inv (a.notes (.label (a.count a.segm))) := by
  have arranged : ∀ s, arrange ((a.notes (.label (a.count a.segm))).layout s) = arrange (a.layout s) := by
    intro s
    rw [layout_notes]
    split
    · rw [arrange_snoc _ rfl]
      exact append_nil _
    · rfl
  refine ⟨⟨fun s filed => ?_,fun s => ?_,fun s filed => ?_⟩,inv.here,fun s => ?_,fun c bad => ?_⟩
  · rw [arranged]
    exact inv.written s filed
  · rw [arranged]
    exact inv.counted s
  · rw [arranged]
    exact inv.recorded s filed
  · rw [layout_notes]
    split
    next same =>
      subst same
      exact (inv.straight a.segm).label (inv.counted a.segm)
    next => exact inv.straight s
  · rw [show (a.notes (.label (a.count a.segm))).buffer = a.buffer from rfl,idle] at bad
    cases bad

end

end Retrobsd.Assembler

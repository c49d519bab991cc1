import Retrobsd.CharacterQueues

/-! Operations at the end of a list. While characters are appended, `c_cl` and
`c_cc` stand still in the list and the true end is a local variable. -/
namespace Retrobsd.CharacterLists
open Function (update update_comm update_eq_self update_of_ne update_self)
open Lib.Chains

theorem extent_nodup : ∀ (bs : List Nat) {s e : Nat}, bs.Nodup → (∀ b ∈ bs, b % 32 = 0) → e ≤ 32 → (extent bs s e).Nodup
  | [],_,_,_,_,_ => by simp [extent]
  | [b],_,_,_,_,_ => List.nodup_range'
  | b :: c :: bs,s,e,once,aligned,top => by
    obtain ⟨absent,later⟩ := List.nodup_cons.mp once
    have tail : ∀ x ∈ c :: bs, x % 32 = 0 := fun x member => aligned x (List.mem_cons_of_mem _ member)
    have ih := @extent_nodup (c :: bs) 4 e later tail top
    rw [extent]
    apply List.Nodup.append List.nodup_range' ih
    intro x here there
    have inside := (mem_extent _ tail (le_refl 4) top there).1
    have first := aligned b (by simp)
    rw [List.mem_range'_1] at here
    have found : round x = b := by
      unfold round
      omega
    exact absent (found ▸ inside)

theorem chain_last {next : Nat → Nat} {a z : Nat} : ∀ {bs : List Nat}, Chain next 0 a (bs ++ [z]) → next z = 0 := by
  intro bs chain
  obtain ⟨r,-,here,last⟩ := (leads_append bs [z]).mp chain.1
  exact last

/-- The list that ends at the place of `p`, whatever the record of `q` says. -/
structure Open {ι : Type} (pool : Pool) (q : ι) (k : Kernel ι) (lists : Option ι → List Nat) (p : Clist)
    (a s z e : Nat) (content : List UInt8) : Prop where
  others : Others pool q k lists
  fits : Fits k.cNext p (lists (some q)) a s z e
  content : content = (extent (lists (some q)) s e).map k.cInfo

/-- How many characters still find a place behind offset `e` of the last block. -/
def capacity {ι : Type} (lists : Option ι → List Nat) (e : Nat) : Nat := 28 * (lists none).length + (32 - e)

variable {ι : Type} {pool : Pool} {q : ι} {k : Kernel ι} {lists : Option ι → List Nat} {p : Clist} {a s z e : Nat}
  {content : List UInt8}

section
section
variable (opened : Open pool q k lists p a s z e content)
include opened

theorem Open.last_mem : z ∈ lists (some q) := List.mem_of_getLast? opened.fits.last

theorem Open.last_aligned : z % 32 = 0 := opened.others.aligned _ z opened.last_mem

theorem nextRoom_none (full : capacity lists e = 0) : nextRoom pool k p.cCl = .ok (k,none) := by
  have top := opened.fits.endHigh
  have aligned := opened.last_aligned
  unfold capacity at full
  have top : e = 32 := by omega
  have nothing : lists none = [] := by
    apply List.eq_nil_of_length_eq_zero
    omega
  have spare := opened.others.spare
  rw [nothing] at spare
  have free : k.cfreelist = 0 := chain_nil.mp spare
  obtain ⟨init,shape⟩ := opened.fits.tail
  have ends : k.cNext z = 0 := by
    have linked := opened.fits.linked
    rw [shape] at linked
    exact chain_last linked
  have same : update k.cNext z k.cfreelist = k.cNext := by
    rw [free,← ends]
    exact update_eq_self z k.cNext
  have whole : p.cCl % 32 = 0 := by
    rw [opened.fits.back,top]
    omega
  have before : p.cCl - 32 = z := by
    rw [opened.fits.back,top]
    omega
  have stored := (opened.others.storeNext opened.last_mem k.cfreelist).1
  rw [same] at stored
  simp [nextRoom,whole,allocateAfter,before,stored,allocate_none opened.others nothing,bind,Except.bind]

end

theorem nextRoom_extend [DecidableEq ι] (opened : Open pool q k lists p a s z e content) (full : e = 32) {b : Nat}
    {free : List Nat} (shape : lists none = b :: free) :
    ∃ k', nextRoom pool k p.cCl = .ok (k',some (b + 4)) ∧ k'.clists = k.clists ∧
      Open pool q k' (regroup lists q free (lists (some q) ++ [b])) {p with cCl := b + 4} a s b 4 content ∧
      Frame q k lists k' (regroup lists q free (lists (some q) ++ [b])) := by
  have aligned := opened.last_aligned
  have whole : p.cCl % 32 = 0 := by rw [opened.fits.back]; omega
  have before : p.cCl - 32 = z := by rw [opened.fits.back]; omega
  have found : k.cfreelist = b := (allocate_some opened.others shape).1
  have stored := opened.others.storeNext opened.last_mem k.cfreelist
  have allocated := allocate_some stored.2 shape
  have others := stored.2.allocated shape
  have member : b ∈ lists none := shape ▸ List.mem_cons_self
  have absent : b ∉ lists (some q) := fun there => absurd (opened.others.parted.unique member there) (by simp)
  have nonempty := opened.fits.nonempty
  obtain ⟨init,final⟩ := opened.fits.tail
  have ok := allocated.2
  refine ⟨_,?_,?_,⟨others,?_,?_⟩,frame_regroup (fun _ _ => ?_) ?_⟩
  · simp only [nextRoom,whole,if_true,allocateAfter,before,stored.1,ok,bind,Except.bind,Option.map]
  · rfl
  · have once := opened.others.parted.once (some q)
    have linked := opened.fits.linked
    have count := opened.fits.count
    rw [final] at once linked absent
    have other : b ≠ z := by rintro rfl; simp at absent
    have distinct : z ∉ init := by
      intro inside
      exact (List.disjoint_of_nodup_append once) inside (by simp)
    rw [regroup_self]
    constructor
    · simp only [CharacterLists.allocated,found]
      rw [final,List.append_assoc]
      have ended : update (update k.cNext z b) b 0 = update (update k.cNext b 0) z b := update_comm other.symm _ _ _
      rw [ended]
      apply Chain.extend
      · exact linked.frame absent
      · exact distinct
      · exact absent
      · exact (block_pos (opened.others.block member)).ne'
      · exact update_self _ _ _
    · simp
    · exact opened.fits.front
    · rfl
    · exact opened.fits.low
    · exact opened.fits.high
    · exact le_refl 4
    · omega
    · rw [List.length_append,List.length_singleton]
      push_cast
      omega
    · exact opened.fits.nonneg
  · rw [regroup_self,extent_snoc _ _ nonempty,opened.content,full]
    simp [CharacterLists.allocated]
  · rfl
  · rfl

theorem nextRoom_spec [DecidableEq ι] (opened : Open pool q k lists p a s z e content) :
    (capacity lists e = 0 ∧ nextRoom pool k p.cCl = .ok (k,none)) ∨
    ∃ k' lists' cp z' e', nextRoom pool k p.cCl = .ok (k',some cp) ∧ k'.clists = k.clists ∧ e' < 32 ∧
      capacity lists' e' = capacity lists e ∧ Open pool q k' lists' {p with cCl := cp} a s z' e' content ∧
      Frame q k lists k' lists' := by
  have top := opened.fits.endHigh
  have aligned := opened.last_aligned
  rcases Nat.lt_or_eq_of_le top with partly | full
  · right
    refine ⟨k,lists,p.cCl,z,e,?_,rfl,partly,rfl,opened,Frame.refl q k lists⟩
    have inside : ¬ p.cCl % 32 = 0 := by
      rw [opened.fits.back]
      have := opened.fits.endLow
      omega
    simp [nextRoom,inside]
  cases shape : lists none with
  | nil =>
    have nothing : capacity lists e = 0 := by simp [capacity,shape,full]
    exact .inl ⟨nothing,nextRoom_none opened nothing⟩
  | cons b free =>
    obtain ⟨k',ok,same,opened',frame⟩ := nextRoom_extend opened full shape
    refine .inr ⟨k',_,_,b,4,ok,same,by omega,?_,opened',frame⟩
    simp only [capacity,regroup_none,shape,List.length_cons]
    omega

def written (info : Nat → UInt8) : Nat → List UInt8 → Nat → UInt8
  | _,[] => info
  | x,c :: cs => written (update info x c) (x + 1) cs

theorem written_outside : ∀ (cs : List UInt8) {info : Nat → UInt8} {x y : Nat}, y ∉ List.range' x cs.length →
    written info x cs y = info y
  | [],_,_,_,_ => rfl
  | c :: cs,info,x,y,absent => by
    rw [List.length_cons,List.range'_succ,List.mem_cons,not_or] at absent
    rw [written,written_outside cs absent.2,update_of_ne absent.1]

theorem written_inside : ∀ (cs : List UInt8) {info : Nat → UInt8} {x : Nat},(List.range' x cs.length).map
    (written info x cs) = cs
  | [],_,_ => rfl
  | c :: cs,info,x => by
    have here : written (update info x c) (x + 1) cs x = c := by
      rw [written_outside cs (by rw [List.mem_range'_1]; omega),update_self]
    rw [List.length_cons,List.range'_succ,List.map_cons]
    change written (update info x c) (x + 1) cs x :: _ = _
    rw [here]
    congr 1
    exact written_inside cs

theorem copyIn_eq : ∀ (cs : List UInt8) {k : Kernel ι} {x : Nat}, (∀ y ∈ List.range' x cs.length, pool.info y = true) →
    copyIn pool k x cs = .ok {k with cInfo := written k.cInfo x cs}
  | [],_,_,_ => rfl
  | c :: cs,k,x,inside => by
    rw [List.length_cons,List.range'_succ] at inside
    have later := @copyIn_eq cs {k with cInfo := update k.cInfo x c} (x + 1) (fun y member =>
      inside y (List.mem_cons_of_mem _ member))
    simp only [copyIn,store,inside x List.mem_cons_self,if_true,bind,Except.bind]
    exact later

variable {next : Nat → Nat} {bs : List Nat}

theorem Fits.grow (fits : Fits next p bs a s z e) {n : Nat} (inside : e + n ≤ 32) :
    Fits next ⟨p.cCc + n,p.cCf,p.cCl + n⟩ bs a s z (e + n) := by
  have count := fits.count
  have := fits.nonneg
  constructor
  · exact fits.linked
  · exact fits.last
  · exact fits.front
  · simp only [fits.back]
    omega
  · exact fits.low
  · exact fits.high
  · have := fits.endLow
    omega
  · exact inside
  · push_cast
    omega
  · change 0 ≤ p.cCc + (n : Int)
    omega

theorem copyIn_spec (opened : Open pool q k lists p a s z e content) (cs : List UInt8) (inside : e + cs.length ≤ 32) :
    ∃ k', copyIn pool k p.cCl cs = .ok k' ∧ k'.clists = k.clists ∧
      Open pool q k' lists ⟨p.cCc + cs.length,p.cCf,p.cCl + cs.length⟩ a s z (e + cs.length) (content ++ cs) ∧
      Frame q k lists k' lists := by
  have aligned := opened.last_aligned
  have low := opened.fits.endLow
  have member := opened.last_mem
  have placed : ∀ y ∈ List.range' p.cCl cs.length, round y = z ∧ 4 ≤ y % 32 := by
    intro y here
    rw [opened.fits.back,List.mem_range'_1] at here
    unfold round
    omega
  have grown : extent (lists (some q)) s (e + cs.length) = extent (lists (some q)) s e ++ List.range' p.cCl cs.length := by
    rw [opened.fits.back]
    exact extent_grow _ opened.fits.last opened.fits.high.le low opened.fits.order
  have apart : ∀ y ∈ extent (lists (some q)) s e, y ∉ List.range' p.cCl cs.length := by
    have distinct := @extent_nodup (lists (some q)) s (e + cs.length) (opened.others.parted.once _)
      (opened.others.aligned _) inside
    rw [grown] at distinct
    intro y first second
    exact List.disjoint_of_nodup_append distinct first second
  have copied : copyIn pool k p.cCl cs = .ok {k with cInfo := written k.cInfo p.cCl cs} := by
    apply copyIn_eq
    intro y here
    obtain ⟨found,behind⟩ := placed y here
    simp [Pool.info,found,opened.others.block member,behind]
  refine ⟨_,copied,rfl,⟨⟨opened.others.parted,opened.others.spare,opened.others.counted,opened.others.queued⟩,
    opened.fits.grow inside,?_⟩,?_⟩
  · rw [grown,List.map_append,written_inside,opened.content]
    congr 1
    apply List.map_congr_left
    intro y here
    exact (written_outside cs (apart y here)).symm
  refine ⟨fun _ _ => rfl,fun _ _ => rfl,?_⟩
  intro r other x there
  apply written_outside
  intro here
  rw [(placed x here).1] at there
  exact other (Option.some.inj (opened.others.parted.unique there member))

theorem Laid.open (laid : Laid pool k lists) (fits : Fits k.cNext (k.clists q) (lists (some q)) a s z e) :
    Open pool q k lists (k.clists q) a s z e (queue k q) :=
  ⟨laid.others q,fits,queue_fits (laid.aligned _) fits⟩

def room (k : Kernel ι) (q : ι) : Nat := k.cfreecount.toNat + (32 - (k.clists q).cCl % 32) % 32

theorem Laid.room_cleared (laid : Laid pool k lists) (cleared : k.clists q = ⟨0,0,0⟩) : room k q = 28 * (lists none).length := by
  have counted := laid.counted
  simp only [room,cleared]
  omega

theorem Laid.room_fits (laid : Laid pool k lists) (fits : Fits k.cNext (k.clists q) (lists (some q)) a s z e) :
    room k q = capacity lists e := by
  have counted := laid.counted
  have aligned := (laid.open fits).last_aligned
  have low := fits.endLow
  have top := fits.endHigh
  have offset : (32 - (z + e) % 32) % 32 = 32 - e := by omega
  simp only [room,capacity,fits.back,offset]
  omega

theorem Laid.blank (laid : Laid pool k lists) : (k.clists q).blank = true ↔ (k.clists q).cCc ≤ 0 := by
  rcases laid.queued q with ⟨cleared,-⟩ | ⟨a,s,z,e,fits,later,filled⟩
  · simp [Clist.blank,cleared]
  have back := fits.back
  have ends : ¬ (k.clists q).cCl = 0 := by omega
  simp [Clist.blank,ends]
  omega

theorem chars_next (next : Nat → Nat) :
    ∀ (n p i : Nat), i + 1 < n → (chars next p n)[i + 1]? = (chars next p n)[i]?.map (advance next)
  | 0,_,_,bound => by omega
  | 1,_,_,bound => by omega
  | n + 2,p,0,_ => by simp [chars]
  | n + 2,p,i + 1,bound => by
    have ih := chars_next next (n + 1) (advance next p) i (by omega)
    rw [chars]
    simpa using ih

theorem Fits.unsnoc (fits : Fits next p bs a s z e) (later : 4 < e)
    (filled : 0 < p.cCc) : extent bs s e = extent bs s (e - 1) ++ [p.cCl - 1] := by
  have count := fits.count
  have grown := @extent_grow bs s z (e - 1) 1 fits.last fits.high.le (by omega) (by intro single; omega)
  rw [show e - 1 + 1 = e by omega] at grown
  rw [grown,fits.back]
  simp [show z + (e - 1) = z + e - 1 by omega]

theorem nextc_spec (laid : Laid pool k lists) {i cp : Nat} (found : (addresses k q)[i]? = some cp) :
    nextc pool k q cp = .ok ((addresses k q)[i + 1]?.getD 0) := by
  obtain ⟨bound,here⟩ := List.getElem?_eq_some_iff.mp found
  have size := laid.length_addresses q
  have filled : 0 < (k.clists q).cCc := by omega
  obtain ⟨a,s,z,e,fits,later⟩ := (laid.queued q).fits filled
  have shape := addresses_fits (laid.aligned _) fits
  have last := fits.unsnoc later filled
  rw [← shape] at last
  have top := fits.endHigh
  have distinct : (addresses k q).Nodup := by
    rw [shape]
    exact extent_nodup _ (laid.parted.once _) (laid.aligned _) top
  have back := fits.back
  have count : (addresses k q).length = (extent (lists (some q)) s (e - 1)).length + 1 := by
    rw [last,List.length_append,List.length_singleton]
  have final : (addresses k q)[(addresses k q).length - 1]? = some ((k.clists q).cCl - 1) := by
    rw [count,last]
    simp
  by_cases isLast : i + 1 = (addresses k q).length
  · have ends : cp + 1 = (k.clists q).cCl := by
      rw [show (addresses k q).length - 1 = i by omega,found] at final
      have := Option.some.inj final
      omega
    simp [nextc,ends,isLast]
  have goes : ¬ cp + 1 = (k.clists q).cCl := by
    intro ends
    apply isLast
    obtain ⟨inside,there⟩ := List.getElem?_eq_some_iff.mp final
    have same : i = (addresses k q).length - 1 := by
      apply distinct.getElem_inj_iff.mp
      rw [here,there]
      omega
    omega
  have followed : (addresses k q)[i + 1]? = some (advance k.cNext cp) := by
    rw [addresses,chars_next _ _ _ _ (by omega)]
    change ((addresses k q)[i]?).map (advance k.cNext) = _
    rw [found]
    rfl
  have inside := laid.mem_addresses (List.mem_of_getElem? found)
  rw [followed]
  have busy : (k.clists q).cCc ≠ 0 ∧ cp + 1 ≠ (k.clists q).cCl := ⟨by omega,goes⟩
  by_cases whole : (cp + 1) % 32 = 0
  · have before : round cp = cp + 1 - 32 := by
      unfold round
      omega
    have loaded := (laid.others q).loadNext (before ▸ inside.1)
    rw [nextc,if_pos busy,if_pos whole,loaded,advance,if_pos whole]
    rfl
  · rw [nextc,if_pos busy,if_neg whole,advance,if_neg whole]
    rfl

theorem length_le_nclist (once : bs.Nodup) (inside : ∀ b ∈ bs, pool.block b = true) : bs.length ≤ pool.nclist := by
  have among : bs ⊆ (List.range pool.nclist).map fun i => round (pool.cfree + 31) + 32 * i := by
    intro b member
    have here := inside b member
    simp only [Pool.block,Bool.and_eq_true,beq_iff_eq,decide_eq_true_eq] at here
    obtain ⟨⟨aligned,low⟩,high⟩ := here
    rw [List.mem_map]
    refine ⟨(b - round (pool.cfree + 31)) / 32,?_,?_⟩
    · rw [List.mem_range]
      unfold round
      omega
    · unfold round
      omega
  have short := (once.subperm among).length_le
  simpa using short

theorem findBefore_spec {y : Nat} : ∀ (turns : Nat) {init : List Nat} {b : Nat},
    Leads k.cNext b (init ++ [y]) z → z ∉ init ++ [y] → (∀ x ∈ init ++ [y], pool.block x = true) →
    init.length < turns → findBefore pool k z turns b = .ok y
  | 0,_,_,_,_,_,few => by omega
  | turns + 1,[],b,leads,_,inside,_ => by
    obtain ⟨rfl,ends⟩ := leads
    have here := inside b (by simp)
    simp only [Leads] at ends
    simp [findBefore,loadNext,here,ends,bind,Except.bind]
  | turns + 1,x :: init,b,leads,absent,inside,few => by
    obtain ⟨rfl,later⟩ := leads
    have here := inside b (by simp)
    have goes : ¬ k.cNext b = z := by
      intro found
      apply absent
      cases init with
      | nil => simp [← found,later.1]
      | cons c init => simp [← found,later.1]
    have ih := @findBefore_spec y turns init (k.cNext b) later (fun member => absent (List.mem_cons_of_mem _ member))
      (fun c member => inside c (List.mem_cons_of_mem _ member)) (by simpa using few)
    simp only [findBefore,loadNext,here,if_true,bind,Except.bind,if_neg goes]
    exact ih

theorem Fits.before_last (fits : Fits next p bs a s z 5) (more : 1 < p.cCc) : ∃ init y, bs = init ++ [y,z] := by
  have count := fits.count
  have low := fits.low
  obtain ⟨pre,final⟩ := fits.tail
  rcases List.eq_nil_or_concat pre with rfl | ⟨init,y,rfl⟩
  · rw [final] at count
    simp at count
    omega
  · exact ⟨init,y,by simpa using final⟩

theorem Fits.shorten {init : List Nat} {y v : Nat} (fits : Fits next p (init ++ [y,z]) a s z 5)
    (once : (init ++ [y,z]).Nodup) (more : 1 < p.cCc) :
    Fits (update (update next z v) y 0) {p with cCl := y + 32,cCc := p.cCc - 1} (init ++ [y]) a s y 32 := by
  have count := fits.count
  have absentZ : z ∉ init ++ [y] := by
    intro member
    exact List.disjoint_of_nodup_append (show (init ++ [y] ++ [z]).Nodup by simpa using once) member (by simp)
  have absentY : y ∉ init := by
    intro member
    exact List.disjoint_of_nodup_append once member (by simp)
  have other : z ≠ y := by rintro rfl; simp at absentZ
  rw [List.length_append] at count
  simp only [List.length_cons,List.length_nil] at count
  constructor
  · rw [update_comm other]
    exact (fits.linked.shorten absentY).frame absentZ
  · simp
  · exact fits.front
  · rfl
  · exact fits.low
  · exact fits.high
  · omega
  · exact le_refl 32
  · simp only [List.length_append,List.length_singleton]
    push_cast at count ⊢
    omega
  · change 0 ≤ p.cCc - 1
    omega

theorem Fits.pop (fits : Fits next p bs a s z e) (later : 5 < e) (more : 1 < p.cCc) :
    Fits next {p with cCl := p.cCl - 1,cCc := p.cCc - 1} bs a s z (e - 1) := by
  have count := fits.count
  have back := fits.back
  have top := fits.endHigh
  constructor
  · exact fits.linked
  · exact fits.last
  · exact fits.front
  · simp only
    omega
  · exact fits.low
  · exact fits.high
  · omega
  · omega
  · simp only
    omega
  · change 0 ≤ p.cCc - 1
    omega

theorem Fits.queue_last (laid : Laid pool k lists) (fits : Fits k.cNext (k.clists q) (lists (some q)) a s z e)
    (later : 4 < e) (filled : 0 < (k.clists q).cCc) :
    load pool k ((k.clists q).cCl - 1) = .ok (k.cInfo ((k.clists q).cCl - 1)) ∧
      queue k q = (extent (lists (some q)) s (e - 1)).map k.cInfo ++ [k.cInfo ((k.clists q).cCl - 1)] := by
  have shape := addresses_fits (laid.aligned _) fits
  have last := fits.unsnoc later filled
  constructor
  · have inside : (k.clists q).cCl - 1 ∈ addresses k q := by simp [shape,last]
    obtain ⟨member,behind⟩ := laid.mem_addresses inside
    exact load_extent (laid.others q) member behind
  · rw [queue,shape,last]
    simp

end

section
variable [DecidableEq ι] {k₀ : Kernel ι} {lists₀ : Option ι → List Nat}

theorem Open.close (opened : Open pool q k lists p a s z e content) (later : 4 < e) (filled : 0 < p.cCc)
    (frame : Frame q k₀ lists₀ k lists) :
    Becomes pool q k₀ lists₀ (k.set q p) content := by
  refine ⟨lists,?_,frame.set p,?_⟩
  · apply (opened.others.set p).laid
    rw [set_self]
    exact .inr ⟨a,s,z,e,opened.fits,later,filled⟩
  have found : Fits (k.set q p).cNext ((k.set q p).clists q) (lists (some q)) a s z e := by
    rw [set_self]
    exact opened.fits
  rw [queue_fits (opened.others.aligned _) found,opened.content]
  rfl

theorem firstRoom_none (laid : Laid pool k lists) (nothing : lists none = []) : firstRoom pool k q = .ok (k,none) := by
  simp [firstRoom,allocate_none (laid.others q) nothing,bind,Except.bind]

theorem firstRoom_some (laid : Laid pool k lists) (cleared : k.clists q = ⟨0,0,0⟩) (blocks : lists (some q) = []) {b : Nat}
    {free : List Nat} (shape : lists none = b :: free) :
    ∃ k' lists', firstRoom pool k q = .ok (k',some (b + 4)) ∧ k'.clists q = ⟨0,b + 4,0⟩ ∧
      Open pool q k' lists' ⟨0,b + 4,b + 4⟩ b 4 b 4 [] ∧ capacity lists' 4 = 28 * (lists none).length ∧
      Frame q k lists k' lists' := by
  have others := laid.others q
  obtain ⟨found,ok⟩ := allocate_some others shape
  have after := (others.allocated shape).set {k.clists q with cCf := b + 4}
  rw [blocks] at after
  have real : b ≠ 0 := (block_pos (others.block (shape ▸ List.mem_cons_self : b ∈ lists none))).ne'
  refine ⟨_,_,?_,?_,⟨after,?_,?_⟩,?_,?_⟩
  · simp only [firstRoom,ok,bind,Except.bind]
    rfl
  · simp [cleared]
  · rw [List.nil_append,regroup_self]
    constructor
    · simp [allocated,found,chain_cons,chain_nil,real]
    · rfl
    · rfl
    · rfl
    · exact le_refl 4
    · omega
    · exact le_refl 4
    · omega
    · simp
    · exact le_refl (0 : Int)
  · rw [List.nil_append,regroup_self]
    simp [extent]
  · simp only [capacity,regroup_none,shape,List.length_cons]
    omega
  · apply Frame.set
    exact frame_regroup (fun _ _ => rfl) rfl

theorem putc_store (opened : Open pool q k lists p a s z e content) (partly : e < 32)
    (frame : Frame q k₀ lists₀ k lists) (counted : (k.clists q).cCc = p.cCc)
    (started : (k.clists q).cCf = p.cCf) (c : UInt8) :
    ∃ k', (store pool k p.cCl c = .ok k') ∧ Becomes pool q k₀ lists₀
      (k'.set q {k'.clists q with cCc := (k'.clists q).cCc + 1,cCl := p.cCl + 1}) (content ++ [c]) := by
  have low := opened.fits.endLow
  have nonneg := opened.fits.nonneg
  obtain ⟨k',ok,same,opened',frame'⟩ := copyIn_spec opened [c] (by simpa using partly)
  refine ⟨k',?_,?_⟩
  · cases stored : store pool k p.cCl c with
    | error fault => simp [copyIn,stored,bind,Except.bind] at ok
    | ok result => simpa [copyIn,stored,bind,Except.bind] using ok
  simp only [same,counted,started]
  apply opened'.close
  · simp only [List.length_singleton]
    omega
  · simp only [List.length_singleton]
    push_cast
    omega
  · exact frame.trans frame'

theorem putc_spec (laid : Laid pool k lists) (c : Int) : (room k q = 0 ∧ putc pool k c q = .ok (k,-1)) ∨
    0 < room k q ∧ ∃ k', putc pool k c q = .ok (k',0) ∧
    Becomes pool q k lists k' (queue k q ++ [UInt8.ofNat (c % 256).toNat]) := by
  have blank := laid.blank (q := q)
  by_cases empty : (k.clists q).cCc ≤ 0
  · obtain ⟨cleared,blocks⟩ := (laid.queued q).cleared empty
    have nothing := queue_cleared cleared
    have space := laid.room_cleared cleared
    cases shape : lists none with
    | nil =>
      left
      refine ⟨by simp [space,shape],?_⟩
      simp [putc,putcRoom,blank.mpr empty,firstRoom_none laid shape,bind,Except.bind]
    | cons b free =>
      right
      obtain ⟨k',lists',ok,record,opened,-,frame⟩ := firstRoom_some laid cleared blocks shape
      obtain ⟨k'',stored,becomes⟩ := putc_store opened (by omega) frame (by rw [record]) (by rw [record])
        (UInt8.ofNat (c % 256).toNat)
      refine ⟨by rw [space,shape,List.length_cons]; omega,_,?_,by simpa [nothing] using becomes⟩
      simp only [putc,putcRoom,blank.mpr empty,if_true,ok,bind,Except.bind,stored]
  obtain ⟨a,s,z,e,fits,later⟩ := (laid.queued q).fits (by omega)
  have opened := laid.open fits
  have space := laid.room_fits fits
  have filled : ¬ (k.clists q).blank = true := fun marked => empty (blank.mp marked)
  rcases nextRoom_spec opened with ⟨full,ok⟩ | ⟨k',lists',cp,z',e',ok,same,partly,capacities,opened',frame⟩
  · left
    refine ⟨space.trans full,?_⟩
    simp [putc,putcRoom,filled,ok,bind,Except.bind]
  right
  obtain ⟨k'',stored,becomes⟩ := putc_store opened' partly frame (by rw [same]) (by rw [same]) (UInt8.ofNat (c % 256).toNat)
  refine ⟨?_,_,?_,becomes⟩
  · rw [space,← capacities,capacity]
    omega
  simp only [putc,putcRoom,if_neg filled,ok,bind,Except.bind]
  rw [stored]

theorem bToQLoop_spec : ∀ (turns : Nat) {k : Kernel ι} {lists : Option ι → List Nat} {p : Clist} {z e : Nat}
    {content : List UInt8} {cp : List UInt8}, Open pool q k lists p a s z e content → cp.length < turns →
    ∃ k' lists' cq z' e', bToQLoop pool turns k p.cCl cp = .ok (k',cq,cp.drop (capacity lists e)) ∧
      k'.clists = k.clists ∧ Frame q k lists k' lists' ∧ (4 < e ∨ 0 < min cp.length (capacity lists e) → 4 < e') ∧
      Open pool q k' lists' ⟨p.cCc + (min cp.length (capacity lists e) : Nat),p.cCf,cq⟩ a s z' e'
      (content ++ cp.take (capacity lists e))
  | 0,_,_,_,_,_,_,_,_,few => by omega
  | turns + 1,k,lists,p,z,e,content,cp,opened,few => by
    by_cases done : cp = []
    · subst done
      refine ⟨k,lists,p.cCl,z,e,by simp [bToQLoop],rfl,Frame.refl q k lists,?_,by simpa using opened⟩
      rintro (already | moved)
      · exact already
      · simp at moved
    rcases nextRoom_spec opened with ⟨full,ok⟩ | ⟨k',lists',cq,z',e',ok,same,partly,capacities,opened',frame⟩
    · refine ⟨k,lists,p.cCl,z,e,by simp [bToQLoop,done,ok,full,bind,Except.bind],rfl,Frame.refl q k lists,?_,?_⟩
      · rintro (already | moved)
        · exact already
        · omega
      · simpa [full] using opened
    have low := opened'.fits.endLow
    have aligned := opened'.last_aligned
    have start : cq = z' + e' := opened'.fits.back
    have nonempty := List.length_pos_of_ne_nil done
    obtain ⟨n,chunk⟩ : ∃ n, min cp.length (32 - cq % 32) = n := ⟨_,rfl⟩
    have width : 32 - cq % 32 = 32 - e' := by omega
    have taken : (cp.take n).length = n := by rw [List.length_take]; omega
    obtain ⟨k'',copied,same',opened'',frame'⟩ := copyIn_spec opened' (cp.take n) (by omega)
    rw [taken] at opened''
    obtain ⟨k₃,lists₃,cq₃,z₃,e₃,ok',same₃,frame₃,later₃,opened₃⟩ :=
      @bToQLoop_spec turns k'' lists' _ z' (e' + n) _ (cp.drop n) opened'' (by rw [List.length_drop]; omega)
    have left : capacity lists' (e' + n) = capacity lists e - n := by
      rw [← capacities]
      unfold capacity
      omega
    have enough : n ≤ capacity lists e := by
      rw [← capacities]
      unfold capacity
      omega
    rw [left] at ok' later₃ opened₃
    rw [List.length_drop] at opened₃
    refine ⟨k₃,lists₃,cq₃,z₃,e₃,?_,same₃.trans (same'.trans same),frame.trans (frame'.trans frame₃),?_,?_⟩
    · rw [bToQLoop,if_neg done]
      simp only [ok,bind,Except.bind,chunk]
      rw [copied]
      refine ok'.trans ?_
      rw [List.drop_drop,show n + (capacity lists e - n) = capacity lists e by omega]
    · intro _
      apply later₃
      left
      omega
    · have total : p.cCc + (n : Int) + (min (cp.length - n) (capacity lists e - n) : Nat) =
          p.cCc + (min cp.length (capacity lists e) : Nat) := by omega
      have joined : content ++ cp.take n ++ (cp.drop n).take (capacity lists e - n) = content ++ cp.take (capacity lists e) := by
        rw [List.append_assoc,← List.take_add,show n + (capacity lists e - n) = capacity lists e by omega]
      rw [← total,← joined]
      exact opened₃

theorem bToQ_stores (opened : Open pool q k lists p a s z e content)
    (frame : Frame q k₀ lists₀ k lists) (counted : (k.clists q).cCc = p.cCc) (started : (k.clists q).cCf = p.cCf)
    (cp : List UInt8) (more : 0 < cp.length) (ready : 4 < e ∧ 0 < p.cCc ∨ 0 < capacity lists e) :
    ∃ k' cq, bToQLoop pool (cp.length + 1) k p.cCl cp = .ok (k',cq,cp.drop (capacity lists e)) ∧
      Becomes pool q k₀ lists₀ (k'.set q {k'.clists q with
        cCl := cq,cCc := (k'.clists q).cCc + ((cp.length : Int) - (cp.drop (capacity lists e)).length)})
        (content ++ cp.take (capacity lists e)) := by
  have nonneg := opened.fits.nonneg
  obtain ⟨k',lists',cq,z',e',ok,same,frame',later,opened'⟩ :=
    @bToQLoop_spec ι pool q a s _ (cp.length + 1) k lists p z e content cp opened (by omega)
  refine ⟨k',cq,ok,?_⟩
  have moved : (cp.length : Int) - (cp.drop (capacity lists e)).length = (min cp.length (capacity lists e) : Nat) := by
    rw [List.length_drop]
    omega
  simp only [same,counted,started,moved]
  apply opened'.close
  · apply later
    omega
  · change 0 < p.cCc + ((min cp.length (capacity lists e) : Nat) : Int)
    omega
  · exact frame.trans frame'

theorem bToQ_spec (laid : Laid pool k lists) (cp : Nat → UInt8) (cc : Int) :
    ∃ k', bToQ pool k cp cc q = .ok (k',((cc.toNat - room k q : Nat) : Int)) ∧
      Becomes pool q k lists k' (queue k q ++ ((List.range cc.toNat).map cp).take (room k q)) := by
  by_cases none : cc ≤ 0
  · have zero : cc.toNat = 0 := by omega
    refine ⟨k,by simp [bToQ,none,zero],lists,laid,Frame.refl q k lists,by simp [zero]⟩
  have blank := laid.blank (q := q)
  have length : ((List.range cc.toNat).map cp).length = cc.toNat := by simp
  by_cases empty : (k.clists q).cCc ≤ 0
  · obtain ⟨cleared,blocks⟩ := (laid.queued q).cleared empty
    have nothing := queue_cleared cleared
    have space := laid.room_cleared cleared
    cases shape : lists Option.none with
    | nil =>
      rw [shape] at space
      refine ⟨k,?_,lists,laid,Frame.refl q k lists,by simp [space]⟩
      simp only [bToQ,if_neg none,bToQRoom,blank.mpr empty,if_true,firstRoom_none laid shape,bind,Except.bind,space]
      congr 2
      simp only [List.length_nil]
      omega
    | cons b free =>
      obtain ⟨k',lists',ok,record,opened,capacities,frame⟩ := firstRoom_some laid cleared blocks shape
      rw [← space] at capacities
      have positive : 0 < room k q := by rw [space,shape,List.length_cons]; omega
      obtain ⟨k'',cq,stored,becomes⟩ := bToQ_stores opened frame (by rw [record]) (by rw [record])
        ((List.range cc.toNat).map cp) (by omega) (.inr (by omega))
      rw [capacities,length] at stored becomes
      rw [show ((cc.toNat : Nat) : Int) = cc by omega] at becomes
      refine ⟨_,?_,by simpa [nothing] using becomes⟩
      simp only [bToQ,if_neg none,bToQRoom,blank.mpr empty,if_true,ok,bind,Except.bind]
      rw [stored]
      simp
  · obtain ⟨a,s,z,e,fits,later⟩ := (laid.queued q).fits (by omega)
    have space := laid.room_fits fits
    have filled : ¬ (k.clists q).blank = true := fun marked => empty (blank.mp marked)
    obtain ⟨k',cq,stored,becomes⟩ := bToQ_stores (laid.open fits) (Frame.refl q k lists) rfl rfl
      ((List.range cc.toNat).map cp) (by omega) (.inl ⟨later,by omega⟩)
    rw [← space,length] at stored becomes
    rw [show ((cc.toNat : Nat) : Int) = cc by omega] at becomes
    refine ⟨_,?_,becomes⟩
    simp only [bToQ,if_neg none,bToQRoom,if_neg filled,stored,bind,Except.bind]
    simp

theorem dropLast_spec (laid : Laid pool k lists) (fits : Fits k.cNext (k.clists q) (lists (some q)) a s z 5)
    (more : 1 < (k.clists q).cCc) :
    ∃ k', dropLast pool k q {k.clists q with cCl := (k.clists q).cCl - 1,cCc := (k.clists q).cCc - 1} = .ok k' ∧
      Becomes pool q k lists k' ((queue k q).dropLast) := by
  obtain ⟨init,y,final⟩ := fits.before_last more
  have once := laid.parted.once (some q)
  have blocks : ∀ x ∈ lists (some q), pool.block x = true := fun x member => (laid.others q).block member
  have size := length_le_nclist once blocks
  have aligned := laid.aligned (some q)
  have queued := queue_fits aligned fits
  have memY : y ∈ lists (some q) := by simp [final]
  have memZ : z ∈ lists (some q) := by simp [final]
  have startF : round (k.clists q).cCf = a := by
    obtain ⟨rest,shape,-⟩ := fits.head
    rw [fits.front]
    exact round_block (aligned a (by simp [shape])) fits.high
  have startL : round ((k.clists q).cCl - 1) = z := by
    rw [fits.back]
    exact round_block (aligned z memZ) (by omega)
  obtain ⟨r,front,back⟩ := (leads_append (init ++ [y]) [z]).mp (by simpa [final] using fits.linked.1)
  obtain rfl : r = z := back.1
  have linkY : k.cNext y = r := by
    obtain ⟨t,-,here⟩ := (leads_append init [y]).mp front
    exact here.2
  rw [final] at once size
  have found : findBefore pool k r (pool.nclist + 1) a = .ok y := by
    apply findBefore_spec _ front
    · intro member
      exact List.disjoint_of_nodup_append (show (init ++ [y] ++ [r]).Nodup by simpa using once) member (by simp)
    · intro x member
      apply blocks x
      rw [final]
      simp only [List.mem_append,List.mem_cons,List.not_mem_nil,or_false] at member ⊢
      tauto
    · simp at size
      omega
  have source : (lists (some q)).Perm (r :: (init ++ [y])) := by
    rw [final,show init ++ [y,r] = (init ++ [y]) ++ [r] by simp]
    exact List.perm_append_singleton r _
  have others := ((laid.others q).set {k.clists q with cCl := y + 32,cCc := (k.clists q).cCc - 1}).released source
  obtain ⟨stored,others'⟩ := others.storeNext (show y ∈ regroup lists q (r :: lists none) (init ++ [y]) (some q) by simp) 0
  have after := @Fits.shorten _ a s r k.cNext init y k.cfreelist (final ▸ fits) once more
  refine ⟨_,?_,regroup lists q (r :: lists none) (init ++ [y]),others'.laid ?_,?_,?_⟩
  · simp only [dropLast,startF,startL,found,(laid.others q).loadNext memY,linkY,release_eq (blocks r memZ),bind,Except.bind]
    exact stored
  · rw [regroup_self]
    refine .inr ⟨a,s,y,32,by simpa [released] using after,by omega,?_⟩
    simp only [released,set_self]
    omega
  · apply frame_regroup
    · intro r other
      exact set_other _ other
    · rfl
  · have tail : ∀ b ∈ init ++ [y], b % 32 = 0 := by
      intro b member
      apply aligned b
      rw [final]
      simp only [List.mem_append,List.mem_cons,List.not_mem_nil,or_false] at member ⊢
      tauto
    rw [queue_fits tail (by simpa [released] using after),queued,final,
      show init ++ [y,r] = (init ++ [y]) ++ [r] by simp,extent_snoc (init ++ [y]) r (by simp)]
    simp [released]

theorem unputc_spec (laid : Laid pool k lists) :
    ∃ k', unputc pool k q = .ok (k',((queue k q).getLast?.map charValue).getD (-1)) ∧
      Becomes pool q k lists k' (queue k q).dropLast := by
  by_cases empty : (k.clists q).cCc ≤ 0
  · obtain ⟨nothing,-,-⟩ := laid.cleared empty
    exact ⟨k,by simp [unputc,empty,nothing],lists,laid,Frame.refl q k lists,by simp [nothing]⟩
  obtain ⟨a,s,z,e,fits,later⟩ := (laid.queued q).fits (by omega)
  obtain ⟨loaded,shape⟩ := fits.queue_last laid later (by omega)
  have count := fits.count
  have high := fits.high
  have back := fits.back
  have top := fits.endHigh
  have member : z ∈ lists (some q) := List.mem_of_getLast? fits.last
  have aligned := laid.aligned (some q)
  have here := (laid.others q).block member
  have final : round ((k.clists q).cCl - 1) = z := by
    rw [back,show z + e - 1 = z + (e - 1) by omega]
    exact round_block (aligned z member) (by omega)
  have result : ((queue k q).getLast?.map charValue).getD (-1) = charValue (k.cInfo ((k.clists q).cCl - 1)) := by
    rw [shape]
    simp
  rw [result]
  by_cases one : (k.clists q).cCc - 1 ≤ 0
  · have single : lists (some q) = [z] := by
      obtain ⟨pre,split⟩ := fits.tail
      rw [split,List.length_append,List.length_singleton] at count
      push_cast at count
      have : pre = [] := List.eq_nil_of_length_eq_zero (by omega)
      rw [split,this,List.nil_append]
    have source : (lists (some q)).Perm [z] := by rw [single]
    have others := ((laid.others q).set ⟨0,0,0⟩).released source
    have zero : (k.clists q).cCc - 1 = 0 := by omega
    refine ⟨released (k.set q ⟨0,0,0⟩) z,?_,regroup lists q (z :: lists none) [],others.laid ?_,?_,?_⟩
    · simp [unputc,if_neg empty,loaded,final,zero,release_eq here,bind,Except.bind]
    · exact .inl ⟨by simp [released],regroup_self⟩
    · apply frame_regroup
      · intro r other
        exact set_other _ other
      · rfl
    have alone : (queue k q).length = 1 := by
      have size := laid.length_queue q
      omega
    rw [queue_cleared (by simp [released])]
    symm
    apply List.eq_nil_of_length_eq_zero
    rw [List.length_dropLast]
    omega
  by_cases edge : ((k.clists q).cCl - 1) % 32 = 4
  · have five : e = 5 := by
      have := aligned z member
      omega
    subst five
    obtain ⟨k',ok,becomes⟩ := dropLast_spec laid fits (by omega)
    refine ⟨k',?_,becomes⟩
    simp only [unputc,if_neg empty,loaded,if_neg one,edge,if_true,bind,Except.bind,ok]
  have more : 5 < e := by
    have := aligned z member
    omega
  have after := fits.pop more (by omega)
  have ok : unputc pool k q = .ok (k.set q {k.clists q with cCl := (k.clists q).cCl - 1,cCc := (k.clists q).cCc - 1},
      charValue (k.cInfo ((k.clists q).cCl - 1))) := by
    simp only [unputc,if_neg empty,loaded,if_neg one,if_neg edge,bind,Except.bind]
  refine ⟨_,ok,lists,?_,(Frame.refl q k lists).set _,?_⟩
  · apply ((laid.others q).set _).laid
    refine .inr ⟨a,s,z,e - 1,by simpa using after,by omega,?_⟩
    simp only [set_self]
    omega
  · rw [queue_fits aligned (by simpa using after),shape]
    simp

end

end Retrobsd.CharacterLists

import Retrobsd.Callouts
import Retrobsd.Lib.Chains
import Retrobsd.Lib.Deltas
import Retrobsd.Lib.Run

/-! What the callout queue stands for: an agenda of calls with absolute deadlines.
The times of the queue are the differences of the deadlines, as long as no due
call waits so long that the count of ticks since overflows. -/
namespace Retrobsd.Callouts
open List
open Function
open Lib.Chains Lib.Deltas

theorem int_eq {x : Int} (low : -2^31 ≤ x) (high : x < 2^31) : int x = x := by
  unfold int
  omega

variable {φ α : Type}

section
def firstDue (times : List Int) : Bool := times.head?.any (decide <| · ≤ 0)

structure Retimed (s s' : Table φ α) (cells : List Nat) : Prop where
  next : s'.cNext = s.cNext
  func : s'.cFunc = s.cFunc
  arg : s'.cArg = s.cArg
  free : s'.callfree = s.callfree
  time : ∀ p, p ∉ cells → s'.cTime p = s.cTime p

theorem hardclockLoop_spec : ∀ (turns : Nat) {s : Table φ α} {p : Nat} {r : List Nat} (needsoft : Bool),
    Leads s.cNext p r 0 → 0 ∉ r → r.Nodup → r.length ≤ turns →
    (∀ x ∈ r.map s.cTime, -2^31 < x ∧ x < 2^31) →
    ∃ s', hardclockLoop turns s p needsoft = .ok (s',needsoft || firstDue (tick (r.map s.cTime))) ∧
      Retimed s s' r ∧ r.map s'.cTime = tick (r.map s.cTime)
  | 0,s,p,r,needsoft,leads,_,_,few,_ => by
    obtain rfl : r = [] := eq_nil_of_length_eq_zero (by omega)
    obtain rfl : p = 0 := leads
    exact ⟨s,by simp [hardclockLoop,tick,firstDue],⟨rfl,rfl,rfl,rfl,fun _ _ => rfl⟩,rfl⟩
  | turns + 1,s,p,[],needsoft,leads,_,_,_,_ => by
    obtain rfl : p = 0 := leads
    exact ⟨s,by simp [hardclockLoop,tick,firstDue],⟨rfl,rfl,rfl,rfl,fun _ _ => rfl⟩,rfl⟩
  | turns + 1,s,p,q :: r,needsoft,leads,real,once,few,bounds => by
    obtain ⟨rfl,later⟩ := leads
    obtain ⟨absent,rest⟩ := nodup_cons.mp once
    have present : ¬ p = 0 := fun zero => real (by simp [zero])
    have here := bounds (s.cTime p) (by simp)
    have time : int (s.cTime p - 1) = s.cTime p - 1 := int_eq (by omega) (by omega)
    have other : ∀ c ∈ r, update s.cTime p (s.cTime p - 1) c = s.cTime c := by
      intro c member
      apply update_of_ne
      rintro rfl
      exact absent member
    have frame : ∀ c, c ∉ p :: r → update s.cTime p (s.cTime p - 1) c = s.cTime c := by
      intro c outside
      apply update_of_ne
      rintro rfl
      simp at outside
    have same : r.map (update s.cTime p (s.cTime p - 1)) = r.map s.cTime := map_congr_left other
    rw [hardclockLoop,if_neg present]
    simp only [time]
    by_cases negative : s.cTime p - 1 < 0
    · obtain ⟨s',ok,retimed,times⟩ :=
        @hardclockLoop_spec turns {s with cTime := update s.cTime p (s.cTime p - 1)} (s.cNext p) r true later
        (fun member => real (mem_cons_of_mem _ member)) rest (by simpa using few)
        (fun x member => bounds x (by rw [same] at member; exact mem_cons_of_mem _ member))
      rw [same] at times
      refine ⟨s',?_,⟨retimed.next,retimed.func,retimed.arg,retimed.free,?_⟩,?_⟩
      · rw [if_neg (by omega),if_neg (by omega),ok]
        have due : s.cTime p ≤ 1 := by omega
        simp [tick,negative,firstDue,due]
      · intro c outside
        rw [retimed.time c (fun member => outside (mem_cons_of_mem _ member))]
        exact frame c outside
      · rw [map_cons,map_cons,tick,if_pos negative,times,retimed.time p absent]
        simp
    · refine ⟨{s with cTime := update s.cTime p (s.cTime p - 1)},?_,⟨rfl,rfl,rfl,rfl,frame⟩,?_⟩
      · by_cases positive : s.cTime p - 1 > 0
        · have notDue : ¬ s.cTime p ≤ 1 := by omega
          rw [if_pos positive]
          simp [tick,negative,firstDue,notDue]
        have due : s.cTime p ≤ 1 := by omega
        rw [if_neg positive,if_pos (by omega)]
        simp [tick,negative,firstDue,due]
      · rw [map_cons,map_cons,tick,if_neg negative,same]
        simp

theorem timeoutLoop_spec (s : Table φ α) : ∀ (turns : Nat) {p1 : Nat} {cells : List Nat} {t : Int},
    Leads s.cNext (s.cNext p1) cells 0 → 0 ∉ cells → cells.length < turns → 0 < t → t < 2^31 →
    ∃ l r p t', cells = l ++ r ∧ timeoutLoop s turns p1 t = .ok (p,s.cNext p,t') ∧ (p1 :: l).getLast? = some p ∧
      0 < t' ∧ t' < 2^31 ∧ (∀ c ∈ r.head?, t' ≤ s.cTime c) ∧
      l.length = skip t (cells.map s.cTime) ∧
      enter t (cells.map s.cTime) = l.map s.cTime ++ t' :: lower t' (r.map s.cTime)
  | 0,_,_,_,_,_,few,_,_ => by omega
  | turns + 1,p1,[],t,leads,_,_,positive,high => by
    have ends : s.cNext p1 = 0 := leads
    refine ⟨[],[],p1,t,rfl,?_,rfl,positive,high,by simp,rfl,rfl⟩
    simp [timeoutLoop,ends]
  | turns + 1,p1,c :: cells,t,leads,real,few,positive,high => by
    obtain ⟨found,later⟩ := leads
    have present : c ≠ 0 := fun zero => real (by simp [zero])
    by_cases before : s.cTime c < t
    · have bound : 0 < s.cTime c → int (t - s.cTime c) = t - s.cTime c := fun some => int_eq (by omega) (by omega)
      obtain ⟨t₁,left⟩ : ∃ t₁, (if s.cTime c > 0 then int (t - s.cTime c) else t) = t₁ := ⟨_,rfl⟩
      have exact' : t₁ = if 0 < s.cTime c then t - s.cTime c else t := by
        rw [← left]
        split
        · exact bound ‹_›
        · rfl
      have range : 0 < t₁ ∧ t₁ < 2^31 := by
        rw [exact']
        split <;> omega
      obtain ⟨l,r,p,t',shape,ok,last,low',high',stop,passed,inserted⟩ := @timeoutLoop_spec s turns c cells t₁
        later (fun member => real (mem_cons_of_mem _ member)) (by simpa using few) range.1 range.2
      refine ⟨c :: l,r,p,t',by rw [shape]; rfl,?_,?_,low',high',stop,?_,?_⟩
      · rw [timeoutLoop]
        simp only [found]
        rw [if_pos ⟨present,before⟩,left]
        exact ok
      · simpa using last
      · rw [map_cons,skip,if_pos before,← exact',length_cons,passed]
      · rw [map_cons,enter,if_pos before,← exact',inserted]
        rfl
    · refine ⟨[],c :: cells,p1,t,rfl,?_,rfl,positive,high,?_,?_,?_⟩
      · rw [timeoutLoop]
        simp only [found]
        rw [if_neg (fun both => before both.2)]
      · intro x member
        obtain rfl : c = x := by simpa using member
        omega
      · rw [map_cons,skip,if_neg before]
        rfl
      · rw [map_cons,enter,if_neg before]
        rfl

variable [DecidableEq φ] [DecidableEq α]

theorem untimeoutLoop_spec (s : Table φ α) (f : φ) (a : α) : ∀ (turns : Nat) {p1 : Nat} {cells : List Nat},
    Leads s.cNext (s.cNext p1) cells 0 → 0 ∉ cells → cells.length < turns →
    (untimeoutLoop s f a turns p1 = .ok none ∧ ∀ c ∈ cells, ¬ (s.cFunc c = f ∧ s.cArg c = a)) ∨
    ∃ l c r p, cells = l ++ c :: r ∧ untimeoutLoop s f a turns p1 = .ok (some (p,c)) ∧ (p1 :: l).getLast? = some p ∧
      (∀ x ∈ l, ¬ (s.cFunc x = f ∧ s.cArg x = a)) ∧ s.cFunc c = f ∧ s.cArg c = a
  | 0,_,_,_,_,few => by omega
  | turns + 1,p1,[],leads,_,_ => by
    have ends : s.cNext p1 = 0 := leads
    exact Or.inl ⟨by simp [untimeoutLoop,ends],by simp⟩
  | turns + 1,p1,c :: cells,leads,real,few => by
    obtain ⟨found,later⟩ := leads
    have present : c ≠ 0 := fun zero => real (by simp [zero])
    rw [untimeoutLoop]
    simp only [found,present,if_false]
    by_cases hit : s.cFunc c = f ∧ s.cArg c = a
    · rw [if_pos hit]
      exact Or.inr ⟨[],c,cells,p1,rfl,rfl,rfl,by simp,hit.1,hit.2⟩
    rw [if_neg hit]
    rcases @untimeoutLoop_spec s f a turns c cells later (fun member => real (mem_cons_of_mem _ member))
      (by simpa using few) with ⟨ok,none⟩ | ⟨l,x,r,p,shape,ok,last,before,func,arg⟩
    · refine Or.inl ⟨ok,?_⟩
      intro y member
      rcases mem_cons.mp member with rfl | inside
      · exact hit
      · exact none y inside
    · refine Or.inr ⟨c :: l,x,r,p,by rw [shape]; rfl,ok,by simpa using last,?_,func,arg⟩
      intro y member
      rcases mem_cons.mp member with rfl | inside
      · exact hit
      · exact before y inside

end

structure Entry (φ α : Type) where
  func : φ
  arg : α
  deadline : Int

structure Agenda (φ α : Type) where
  now : Int
  entries : List (Entry φ α)

def Agenda.deadlines {φ α : Type} (a : Agenda φ α) : List Int := a.entries.map Entry.deadline

def Entry.call {φ α : Type} (e : Entry φ α) : φ × α := (e.func,e.arg)

def group (todo free : List Nat) : Bool → List Nat
  | true => todo
  | false => free

structure Refines {φ α : Type} (ncall : Nat) (s : Table φ α) (a : Agenda φ α) (todo free : List Nat) : Prop where
  parted : Partition (fun p => 1 ≤ p ∧ p ≤ ncall) (group todo free)
  queue : Leads s.cNext (calltodo ncall) (calltodo ncall :: todo) 0
  spare : Chain s.cNext 0 s.callfree free
  calls : (todo.map fun p => (s.cFunc p,s.cArg p)) = a.entries.map Entry.call
  times : todo.map s.cTime = deltas a.now a.now a.deadlines
  sorted : a.deadlines.Pairwise (· ≤ ·)
  bounds : ∀ d ∈ a.deadlines, -2^31 ≤ d - a.now ∧ d - a.now < 2^31

theorem parted_off {pool : Nat → Prop} {todo todo' free : List Nat} {p : Nat}
    (parted : Partition pool (group todo free)) (taken : todo.Perm (p :: todo')) :
    Partition pool (group todo' (p :: free)) := by
  apply parted.move (i := true) (j := false) (x := p) (by decide)
  · exact taken
  · exact Perm.refl _
  rintro (_ | _) first second
  · exact absurd rfl second
  · exact absurd rfl first

theorem parted_on {pool : Nat → Prop} {todo todo' free : List Nat} {p : Nat}
    (parted : Partition pool (group todo (p :: free))) (given : todo'.Perm (p :: todo)) :
    Partition pool (group todo' free) := by
  apply parted.move (i := false) (j := true) (x := p) (by decide)
  · exact Perm.refl _
  · exact given
  rintro (_ | _) first second
  · exact absurd rfl first
  · exact absurd rfl second

variable {ncall : Nat} {s : Table φ α} {a : Agenda φ α} {todo free : List Nat}

section
variable (refines : Refines ncall s a todo free)
include refines

theorem Refines.cell {p : Nat} (member : p ∈ todo) :
    1 ≤ p ∧ p ≤ ncall := refines.parted.mem_pool (show p ∈ group todo free true from member)

theorem Refines.free_cell {p : Nat} (member : p ∈ free) : 1 ≤ p ∧ p ≤ ncall :=
  refines.parted.mem_pool (show p ∈ group todo free false from member)

theorem Refines.apart {p : Nat} (first : p ∈ todo) (second : p ∈ free) : False :=
  refines.parted.apart true false (by decide) (show p ∈ group todo free true from first) second

theorem Refines.real : 0 ∉ todo := by
  intro member
  have := refines.cell member
  omega

theorem Refines.header : (calltodo ncall :: todo).Nodup := by
  apply nodup_cons.mpr
  refine ⟨?_,refines.parted.once true⟩
  intro member
  have := refines.cell member
  unfold calltodo at this
  omega

theorem Refines.length : todo.length = a.entries.length := by
  simpa using congrArg List.length refines.calls

theorem Refines.length_le : todo.length ≤ ncall := by
  have among : todo ⊆ range' 1 ncall := by
    intro p member
    have := refines.cell member
    rw [mem_range'_1]
    omega
  have once : todo.Nodup := refines.parted.once true
  have short := (once.subperm among).length_le
  simpa using short

theorem Refines.has_free (fewer : a.entries.length < ncall) : ∃ p rest, free = p :: rest := by
  cases free with
  | cons p rest => exact ⟨p,rest,rfl⟩
  | nil =>
    have among : range' 1 ncall ⊆ todo := by
      intro p member
      rw [mem_range'_1] at member
      obtain ⟨(_ | _),found⟩ := (refines.parted.cover p).mp (by omega)
      · cases found
      · exact found
    have once : (range' 1 ncall).Nodup := nodup_range'
    have short := (once.subperm among).length_le
    rw [length_range',refines.length] at short
    omega

theorem Refines.time_bounds {lo : Int} (low : lo ≤ 0)
    (above : ∀ d ∈ a.deadlines, lo ≤ d - a.now) : ∀ x ∈ todo.map s.cTime, lo ≤ x ∧ x ≤ 2^31 - 1 := by
  rw [refines.times]
  apply mem_deltas low (le_refl _) (fun _ _ => le_of_lt) refines.sorted
  intro d member
  have := refines.bounds d member
  exact ⟨above d member,by omega⟩

theorem hardclock_refines (timely : ∀ d ∈ a.deadlines, a.now - d < 2^31) :
    ∃ s', hardclock ncall s = .ok (s',a.deadlines.any (decide <| · ≤ a.now + 1)) ∧
    Refines ncall s' {a with now := a.now + 1} todo free := by
  have above : ∀ d ∈ a.deadlines, -2^31 + 1 ≤ d - a.now := by
    intro d member
    have := timely d member
    omega
  obtain ⟨s',ok,retimed,times⟩ := hardclockLoop_spec ncall false refines.queue.2 refines.real
    (refines.parted.once true) refines.length_le (fun x member => by
      have := refines.time_bounds (by omega) above x member
      omega)
  rw [refines.times,tick_deltas refines.sorted] at ok times
  have needsoft : firstDue (deltas (a.now + 1) (a.now + 1) a.deadlines) = a.deadlines.any (decide <| · ≤ a.now + 1) := by
    have due := @head_due (a.now + 1) _ refines.sorted
    rw [Bool.eq_iff_iff,firstDue,any_eq_true]
    simpa [Option.any_eq_true] using due
  rw [needsoft,Bool.false_or] at ok
  refine ⟨s',ok,refines.parted,?_,?_,?_,times,refines.sorted,?_⟩
  · rw [retimed.next]
    exact refines.queue
  · rw [retimed.next,retimed.free]
    exact refines.spare
  · rw [retimed.func,retimed.arg]
    exact refines.calls
  · intro d member
    have := refines.bounds d member
    have := above d member
    constructor <;> (simp only; omega)

theorem Refines.first {e : Entry φ α} {es : List (Entry φ α)}
    (shape : a.entries = e :: es) : ∃ p rest, todo = p :: rest ∧ s.cNext (calltodo ncall) = p ∧ p ≠ 0 ∧
      s.cTime p = e.deadline - a.now ∧ (s.cFunc p,s.cArg p) = e.call := by
  have length := refines.length
  rw [shape] at length
  cases todo with
  | nil => simp at length
  | cons p rest =>
    have calls := refines.calls
    have times := refines.times
    rw [shape] at calls
    rw [Agenda.deadlines,shape,map_cons,map_cons,deltas] at times
    refine ⟨p,rest,rfl,refines.queue.2.1,?_,?_,(cons.inj calls).1⟩
    · have := refines.cell (p := p) (by simp)
      omega
    rw [(cons.inj times).1]
    split <;> rfl

theorem softclockTurn_idle (later : ∀ e ∈ a.entries.head?, a.now < e.deadline) : softclockTurn ncall s = (s,none) := by
  cases shape : a.entries with
  | nil =>
    have length := refines.length
    rw [shape] at length
    obtain rfl : todo = [] := eq_nil_of_length_eq_zero length
    have ends : s.cNext (calltodo ncall) = 0 := refines.queue.2
    simp [softclockTurn,ends]
  | cons e es =>
    obtain ⟨p,rest,-,found,-,time,-⟩ := refines.first shape
    have := later e (by simp [shape])
    have pending : s.cTime p > 0 := by omega
    simp [softclockTurn,found,pending]

theorem softclockTurn_calls {e : Entry φ α} {es : List (Entry φ α)} (shape : a.entries = e :: es) (due : e.deadline ≤ a.now) :
    ∃ s' todo' free', softclockTurn ncall s = (s',some e.call) ∧ Refines ncall s' {a with entries := es} todo' free' := by
  obtain ⟨p,rest,cells,found,real,time,call⟩ := refines.first shape
  subst cells
  have header := refines.header
  have once : (p :: rest).Nodup := (nodup_cons.mp header).2
  have notHeader : calltodo ncall ≠ p := fun same => (nodup_cons.mp header).1 (by simp [same])
  have notFree : p ∉ free := fun member => refines.apart (by simp) member
  have notDue : ¬ (p = 0 ∨ s.cTime p > 0) := by
    rintro (zero | pending)
    · exact real zero
    · omega
  have headerFree : calltodo ncall ∉ free := by
    intro member
    have := refines.free_cell member
    unfold calltodo at this
    omega
  have ok : softclockTurn ncall s = ({s with
      cNext := update (update s.cNext (calltodo ncall) (s.cNext p)) p s.callfree
      callfree := p},some e.call) := by
    simp only [softclockTurn,found]
    rw [if_neg notDue,call]
  have sorted := refines.sorted
  have bounds := refines.bounds
  have calls := refines.calls
  have times := refines.times
  rw [Agenda.deadlines,shape,map_cons] at sorted bounds times
  rw [shape] at calls
  rw [map_cons,deltas,max_eq_left due] at times
  refine ⟨_,rest,p :: free,ok,?_,?_,?_,?_,?_,?_,?_⟩
  · exact parted_off refines.parted (Perm.refl _)
  · have removed := @Leads.remove _ _ _ _ _ p (calltodo ncall) [] rest refines.queue header
    apply removed.frame
    intro member
    rcases mem_cons.mp member with same | inside
    · exact notHeader same.symm
    · exact (nodup_cons.mp once).1 inside
  · exact (refines.spare.frame headerFree).push notFree real
  · exact (cons.inj calls).2
  · exact (cons.inj times).2
  · exact (pairwise_cons.mp sorted).2
  · exact fun d member => bounds d (mem_cons_of_mem _ member)

end

theorem link_times {pnew p1 p2 : Nat} {t : Int} {l r : List Nat} (behind : Leads s.cNext p2 r 0) (real : 0 ∉ r)
    (once : (l ++ r).Nodup) (absent : pnew ∉ l ++ r) (positive : 0 < t) (fits : ∀ c ∈ r.head?, t ≤ s.cTime c)
    (bounds : ∀ x ∈ r.map s.cTime, x < 2^31) :
    (l ++ pnew :: r).map (link s pnew p1 p2 t).cTime = l.map s.cTime ++ t :: lower t (r.map s.cTime) := by
  simp only [mem_append,not_or] at absent
  have keeps : ∀ (c : Nat) (v : Int) (cells : List Nat) (time : Nat → Int), c ∉ cells →
    cells.map (update time c v) = cells.map time := by
    intro c v cells time outside
    apply map_congr_left
    intro x member
    apply update_of_ne
    rintro rfl
    exact outside member
  cases r with
  | nil =>
    obtain rfl : p2 = 0 := behind
    simp only [link,ne_eq,not_true_eq_false,if_false,map_append,map_cons,map_nil,lower,update_self]
    rw [keeps pnew t l s.cTime absent.1]
  | cons c r =>
    obtain ⟨rfl,-⟩ := behind
    have present : p2 ≠ 0 := fun zero => real (by simp [zero])
    have here := fits p2 (by simp)
    have high := bounds (s.cTime p2) (by simp)
    obtain ⟨-,tail,apart⟩ := nodup_append.mp once
    have notFront : p2 ∉ l := fun member => apart p2 member p2 (by simp) rfl
    have notLater : p2 ∉ r := (nodup_cons.mp tail).1
    simp only [mem_cons,not_or] at absent
    have time : int (s.cTime p2 - t) = s.cTime p2 - t := int_eq (by omega) (by omega)
    simp only [link,ne_eq,present,not_false_eq_true,if_true,map_append,map_cons,lower,update_self,
      update_of_ne (Ne.symm absent.2.1),update_of_ne absent.2.1,time]
    rw [keeps p2 _ l _ notFront,keeps pnew t l s.cTime absent.1,keeps p2 _ r _ notLater,keeps pnew t r s.cTime absent.2.2]

@[simp] theorem link_next (pnew p1 p2 : Nat) (t : Int) : (link s pnew p1 p2 t).cNext =
    update (update s.cNext p1 pnew) pnew p2 := by
  unfold link
  split <;> rfl

@[simp] theorem link_func (pnew p1 p2 : Nat) (t : Int) : (link s pnew p1 p2 t).cFunc = s.cFunc := by
  unfold link
  split <;> rfl

@[simp] theorem link_arg (pnew p1 p2 : Nat) (t : Int) : (link s pnew p1 p2 t).cArg = s.cArg := by
  unfold link
  split <;> rfl

@[simp] theorem link_callfree (pnew p1 p2 : Nat) (t : Int) : (link s pnew p1 p2 t).callfree = s.callfree := by
  unfold link
  split <;> rfl

def Agenda.enter (a : Agenda φ α) (e : Entry φ α) : Agenda φ α :=
  {a with entries := a.entries.orderedInsert (fun e e' => e.deadline ≤ e'.deadline) e}

theorem Agenda.enter_deadlines (e : Entry φ α) : (a.enter e).deadlines = a.deadlines.orderedInsert (· ≤ ·) e.deadline := by
  apply map_orderedInsert
  · intro x _
    rfl
  intro x _
  rfl

theorem Agenda.enter_entries (e : Entry φ α) {k : Nat}
    (passed : k = (a.deadlines.takeWhile fun d => !decide (e.deadline ≤ d)).length) :
    (a.enter e).entries = a.entries.take k ++ e :: a.entries.drop k := by
  have front : k = (a.entries.takeWhile fun e' => !decide (e.deadline ≤ e'.deadline)).length := by
    rw [passed,Agenda.deadlines,takeWhile_map,length_map]
    rfl
  have split := takeWhile_append_dropWhile (p := fun e' : Entry φ α => !decide (e.deadline ≤ e'.deadline)) (l := a.entries)
  have first : a.entries.take k = a.entries.takeWhile fun e' => !decide (e.deadline ≤ e'.deadline) := by
    rw [front]
    nth_rewrite 2 [← split]
    exact take_left
  have second : a.entries.drop k = a.entries.dropWhile fun e' => !decide (e.deadline ≤ e'.deadline) := by
    rw [front]
    nth_rewrite 2 [← split]
    exact drop_left
  rw [Agenda.enter,orderedInsert_eq_take_drop,first,second]
  simp only [decide_not]

def recorded (s : Table φ α) (pnew : Nat) (f : φ) (g : α) : Table φ α :=
  {s with callfree := s.cNext pnew,cArg := update s.cArg pnew g,cFunc := update s.cFunc pnew f}

theorem recorded_calls {l r : List Nat} {pnew : Nat} (f : φ) (g : α) (d : Int) (absent : pnew ∉ l ++ r)
    (calls : ((l ++ r).map fun p => (s.cFunc p,s.cArg p)) = a.entries.map Entry.call) :
    ((l ++ pnew :: r).map fun p => ((recorded s pnew f g).cFunc p,(recorded s pnew f g).cArg p)) =
      (a.entries.take l.length ++ ⟨f,g,d⟩ :: a.entries.drop l.length).map Entry.call := by
  simp only [mem_append,not_or] at absent
  have keeps : ∀ cells : List Nat, pnew ∉ cells →
    (cells.map fun p => ((recorded s pnew f g).cFunc p,(recorded s pnew f g).cArg p)) =
        cells.map fun p => (s.cFunc p,s.cArg p) := by
    intro cells outside
    apply map_congr_left
    intro x member
    have other : x ≠ pnew := by
      rintro rfl
      exact outside member
    simp [recorded,update_of_ne other]
  have first := congrArg (take l.length) calls
  have second := congrArg (drop l.length) calls
  rw [← map_take,← map_take,take_left] at first
  rw [← map_drop,← map_drop,drop_left] at second
  rw [map_append,map_cons,map_append,map_cons,keeps l absent.1,keeps r absent.2,first,second]
  simp [recorded,Entry.call]

theorem timeout_refines (refines : Refines ncall s a todo free) (fewer : a.entries.length < ncall) (f : φ) (g : α) {t : Int}
    (high : t < 2^31) : ∃ s' todo' free', timeout ncall s f g t = .ok s' ∧
    Refines ncall s' (a.enter ⟨f,g,a.now + max t 1⟩) todo' free' := by
  obtain ⟨pnew,free',shape⟩ := refines.has_free fewer
  subst shape
  obtain ⟨start,real,later⟩ := chain_cons.mp refines.spare
  have notTodo : pnew ∉ todo := fun member => refines.apart member (by simp)
  have size := refines.length_le
  have positive : 0 < max t 1 := by omega
  have given : (if t ≤ 0 then 1 else t) = max t 1 := by split <;> omega
  -- The search looks at links and times only, which the new cell does not touch.
  obtain ⟨l,r,p1,t',cells,ok,last,low',high',stop,passed,entered⟩ := timeoutLoop_spec (recorded s pnew f g)
    (ncall + 1) refines.queue.2 refines.real (by omega) positive (by omega)
  have done : timeout ncall s f g t = .ok (link (recorded s pnew f g) pnew p1 (s.cNext p1) t') := by
    rw [timeout]
    simp only [start,real,if_false,given]
    rw [show ({s with callfree := s.cNext pnew,cArg := update s.cArg pnew g,cFunc := update s.cFunc pnew f} :
      Table φ α) = recorded s pnew f g from rfl,ok]
    rfl
  subst cells
  obtain ⟨l',before⟩ := getLast?_eq_some_iff.mp last
  have joined : ∀ rest, calltodo ncall :: (l ++ rest) = l' ++ p1 :: rest := by
    intro rest
    rw [← cons_append,before,append_assoc]
    rfl
  have header := refines.header
  have queue := refines.queue
  rw [joined r] at queue header
  obtain ⟨-,-,-,behind⟩ := (leads_append l' (p1 :: r)).mp queue
  have notWhole : pnew ∉ l' ++ p1 :: r := by
    rw [← joined r]
    intro member
    rcases mem_cons.mp member with same | inside
    · have := refines.free_cell (p := pnew) (by simp)
      unfold calltodo at same
      omega
    · exact notTodo inside
  have p1Free : p1 ∉ free' := by
    intro member
    have inside : p1 ∈ calltodo ncall :: (l ++ r) := by simp [joined r]
    rcases mem_cons.mp inside with same | queued
    · have := refines.free_cell (p := p1) (by simp [member])
      unfold calltodo at same
      omega
    · exact refines.apart queued (by simp [member])
  have after : a.now < a.now + max t 1 := by omega
  have ahead : ∀ d ∈ a.deadlines, a.now < d → a.now ≤ d := fun _ _ => le_of_lt
  have timeSame : (recorded s pnew f g).cTime = s.cTime := rfl
  rw [timeSame,refines.times,show max t 1 = a.now + max t 1 - a.now by omega] at passed entered
  rw [skip_deltas after (le_refl _) after ahead refines.sorted] at passed
  rw [enter_deltas after (le_refl _) after ahead refines.sorted] at entered
  have bounds : ∀ x ∈ r.map s.cTime, x < 2^31 := by
    intro x member
    have := refines.time_bounds (by omega) (fun d inside => (refines.bounds d inside).1) x
      (by rw [map_append]; exact mem_append_right _ member)
    omega
  refine ⟨_,l ++ pnew :: r,free',done,?_,?_,?_,?_,?_,?_,?_⟩
  · apply parted_on refines.parted
    exact perm_middle
  · rw [link_next,joined (pnew :: r)]
    exact queue.insert header notWhole
  · rw [link_next,link_callfree]
    exact (later.frame p1Free).frame (nodup_cons.mp (refines.parted.once false)).1
  · rw [link_func,link_arg,Agenda.enter_entries _ passed]
    exact recorded_calls f g _ notTodo refines.calls
  · rw [Agenda.enter_deadlines]
    have timed := @link_times φ α (recorded s pnew f g) pnew p1 (s.cNext p1) t' l r behind
      (fun member => refines.real (by simp [member])) (refines.parted.once true) notTodo low' stop bounds
    exact timed.trans entered.symm
  · rw [Agenda.enter_deadlines]
    exact refines.sorted.orderedInsert _ _
  · intro d member
    rw [Agenda.enter_deadlines,mem_orderedInsert] at member
    rcases member with rfl | inside
    · simp only [Agenda.enter]
      omega
    · exact refines.bounds d inside

theorem unlink_times {p1 c : Nat} {l r : List Nat} (behind : Leads s.cNext (s.cNext c) r 0) (real : 0 ∉ r)
    (once : (l ++ c :: r).Nodup) (bounds : 0 < s.cTime c → ∀ x ∈ lower (-s.cTime c) (r.map s.cTime), -2^31 ≤ x ∧ x < 2^31) :
    (l ++ r).map (unlink s p1 c).cTime = l.map s.cTime ++ if 0 < s.cTime c then lower (-s.cTime c)
    (r.map s.cTime) else r.map s.cTime := by
  have keeps : ∀ (y : Nat) (v : Int) (cells : List Nat), y ∉ cells → cells.map (update s.cTime y v) = cells.map s.cTime := by
    intro y v cells outside
    apply map_congr_left
    intro x member
    apply update_of_ne
    rintro rfl
    exact outside member
  by_cases positive : 0 < s.cTime c
  · rw [if_pos positive]
    cases r with
    | nil =>
      have ends : s.cNext c = 0 := behind
      simp [unlink,ends,lower]
    | cons y r =>
      obtain ⟨found,-⟩ := behind
      have present : y ≠ 0 := fun zero => real (by simp [zero])
      have here := bounds positive (s.cTime y - -s.cTime c) (by simp [lower])
      obtain ⟨-,tail,apart⟩ := nodup_append.mp once
      have notFront : y ∉ l := fun member => apart y member y (by simp) rfl
      have notLater : y ∉ r := (nodup_cons.mp (nodup_cons.mp tail).2).1
      have time : int (s.cTime y + s.cTime c) = s.cTime y - -s.cTime c := by
        rw [int_eq (by omega) (by omega)]
        omega
      simp only [unlink,found,ne_eq,present,not_false_eq_true,gt_iff_lt,positive,and_self,if_true,map_append,map_cons,
        lower,update_self,time]
      rw [keeps y _ l notFront,keeps y _ r notLater]
  · rw [if_neg positive]
    have still : ¬ (s.cNext c ≠ 0 ∧ s.cTime c > 0) := fun both => positive both.2
    simp only [unlink,if_neg still,map_append]

@[simp] theorem unlink_next (p1 p2 : Nat) : (unlink s p1 p2).cNext =
    update (update s.cNext p1 (s.cNext p2)) p2 s.callfree := by
  unfold unlink
  split <;> rfl

@[simp] theorem unlink_func (p1 p2 : Nat) : (unlink s p1 p2).cFunc = s.cFunc := by
  unfold unlink
  split <;> rfl

@[simp] theorem unlink_arg (p1 p2 : Nat) : (unlink s p1 p2).cArg = s.cArg := by
  unfold unlink
  split <;> rfl

@[simp] theorem unlink_callfree (p1 p2 : Nat) : (unlink s p1 p2).callfree = p2 := by
  unfold unlink
  split <;> rfl

theorem split_entries {l r : List Nat} {c : Nat} {es : List (Entry φ α)}
    (calls : ((l ++ c :: r).map fun p => (s.cFunc p,s.cArg p)) = es.map Entry.call) :
    ∃ L e R, es = L ++ e :: R ∧ L.length = l.length ∧ (l.map fun p => (s.cFunc p,s.cArg p)) = L.map Entry.call ∧
      (s.cFunc c,s.cArg c) = e.call ∧ (r.map fun p => (s.cFunc p,s.cArg p)) = R.map Entry.call := by
  rw [map_append,map_cons] at calls
  obtain ⟨L,rest,rfl,first,second⟩ := append_eq_map_iff.mp calls
  obtain ⟨e,R,rfl,here,third⟩ := map_eq_cons_iff.mp second
  exact ⟨L,e,R,rfl,by simpa using congrArg length first,first.symm,here.symm,third.symm⟩

section
variable [DecidableEq φ] [DecidableEq α]

def Agenda.remove (a : Agenda φ α) (f : φ) (g : α) : Agenda φ α :=
    {a with entries := a.entries.eraseP fun e => decide (e.func = f ∧ e.arg = g)}

theorem untimeout_removes (refines : Refines ncall s a todo free) {l r : List Nat} {c p1 : Nat} {f : φ} {g : α}
    (cells : todo = l ++ c :: r) (last : (calltodo ncall :: l).getLast? = some p1)
    (before : ∀ x ∈ l, ¬ (s.cFunc x = f ∧ s.cArg x = g)) (func : s.cFunc c = f) (arg : s.cArg c = g) :
    Refines ncall (unlink s p1 c) (a.remove f g) (l ++ r) (c :: free) := by
  subst cells
  obtain ⟨L,e,R,shape,size,front,call,behindCalls⟩ := split_entries refines.calls
  have erased : (a.remove f g).entries = L ++ R := by
    have none : ∀ x ∈ L, ¬ decide (x.func = f ∧ x.arg = g) = true := by
      intro x member
      have inside : x.call ∈ l.map fun p => (s.cFunc p,s.cArg p) := front ▸ mem_map_of_mem member
      obtain ⟨p,there,same⟩ := mem_map.mp inside
      have apart := before p there
      simp only [Entry.call,Prod.mk.injEq] at same
      rw [same.1,same.2] at apart
      simpa using apart
    have hit : decide (e.func = f ∧ e.arg = g) = true := by
      simp only [Entry.call,Prod.mk.injEq] at call
      simp [← call.1,← call.2,func,arg]
    simp only [Agenda.remove,shape]
    rw [eraseP_append_right _ none,eraseP_cons]
    simp only [hit,cond_true]
  have parts : a.deadlines = L.map Entry.deadline ++ e.deadline :: R.map Entry.deadline := by
    simp [Agenda.deadlines,shape]
  have left : (a.remove f g).deadlines = L.map Entry.deadline ++ R.map Entry.deadline := by
    simp [Agenda.deadlines,erased]
  have sorted := refines.sorted
  have times := refines.times
  have bounds := refines.bounds
  rw [parts] at sorted times bounds
  obtain ⟨x,xs,whole,without⟩ := @deltas_remove a.now e.deadline (R.map Entry.deadline) (L.map Entry.deadline) a.now
    (le_refl _) (fun _ _ => le_of_lt) sorted
  rw [whole,map_append,map_cons] at times
  obtain ⟨frontTimes,backTimes⟩ := append_inj times (by simp [size])
  obtain ⟨here,later⟩ := cons.inj backTimes
  obtain ⟨l',joined⟩ := getLast?_eq_some_iff.mp last
  have append : ∀ rest, calltodo ncall :: (l ++ rest) = l' ++ p1 :: rest := by
    intro rest
    rw [← cons_append,joined,append_assoc]
    rfl
  have header := refines.header
  have queue := refines.queue
  rw [append] at header queue
  obtain ⟨-,-,-,-,behind⟩ := (leads_append l' (p1 :: c :: r)).mp queue
  have kept : ∀ d ∈ L.map Entry.deadline ++ R.map Entry.deadline, -2^31 ≤ d - a.now ∧ d - a.now ≤ 2^31 - 1 := by
    intro d member
    have := bounds d (by
      simp only [mem_append,mem_cons] at member ⊢
      tauto)
    omega
  have sorted' : (L.map Entry.deadline ++ R.map Entry.deadline).Pairwise (· ≤ ·) := by
    apply List.Pairwise.sublist _ sorted
    exact Sublist.append_left (sublist_cons_self _ _) _
  have p1Free : p1 ∉ free := by
    intro member
    have inside : p1 ∈ calltodo ncall :: (l ++ c :: r) := by simp [append]
    rcases mem_cons.mp inside with same | queued
    · have := refines.free_cell member
      unfold calltodo at same
      omega
    · exact refines.apart queued member
  have cReal := refines.cell (p := c) (by simp)
  constructor
  · exact parted_off refines.parted perm_middle
  · rw [unlink_next,append]
    apply (queue.remove header).frame
    have distinct : (c :: (l' ++ p1 :: r)).Nodup := by
      apply (Perm.nodup_iff _).mp header
      rw [show l' ++ p1 :: c :: r = (l' ++ [p1]) ++ c :: r by simp,show l' ++ p1 :: r = (l' ++ [p1]) ++ r by simp]
      exact perm_middle
    exact (nodup_cons.mp distinct).1
  · rw [unlink_next,unlink_callfree]
    exact (refines.spare.frame p1Free).push (fun member => refines.apart (by simp) member) (by omega)
  · rw [unlink_func,unlink_arg,erased,map_append,map_append,front,behindCalls]
  · rw [left]
    simp only [Agenda.remove]
    rw [without,unlink_times behind (fun member => refines.real (by simp [member])) (refines.parted.once true),
      here,later,frontTimes]
    intro positive y member
    rw [here,later] at member
    rw [here] at positive
    have inRange := @mem_deltas a.now (-2^31) (2^31 - 1) (by omega) (L.map Entry.deadline ++ R.map Entry.deadline) a.now
      (le_refl _) (fun _ _ => le_of_lt) sorted' kept
    rw [without,if_pos positive] at inRange
    have := inRange y (mem_append_right _ member)
    omega
  · rw [left]
    exact sorted'
  · rw [left]
    intro d member
    have := kept d member
    simp only [Agenda.remove]
    omega

theorem untimeout_refines (refines : Refines ncall s a todo free) (f : φ) (g : α) :
    ∃ s' todo' free', untimeout ncall s f g = .ok s' ∧ Refines ncall s' (a.remove f g) todo' free' := by
  have size := refines.length_le
  rcases untimeoutLoop_spec s f g (ncall + 1) refines.queue.2 refines.real (by omega) with
    ⟨ok,none⟩ | ⟨l,c,r,p1,cells,ok,last,before,func,arg⟩
  · have same : a.remove f g = a := by
      have absent : ∀ e ∈ a.entries, ¬ decide (e.func = f ∧ e.arg = g) = true := by
        intro e member
        have inside : e.call ∈ todo.map fun p => (s.cFunc p,s.cArg p) := refines.calls ▸ mem_map_of_mem member
        obtain ⟨p,there,found⟩ := mem_map.mp inside
        have apart := none p there
        simp only [Entry.call,Prod.mk.injEq] at found
        rw [found.1,found.2] at apart
        simpa using apart
      simp only [Agenda.remove,eraseP_of_forall_not absent]
    rw [same]
    exact ⟨s,todo,free,by simp [untimeout,ok],refines⟩
  · exact ⟨unlink s p1 c,l ++ r,c :: free,by simp [untimeout,ok],untimeout_removes refines cells last before func arg⟩

end

end Retrobsd.Callouts

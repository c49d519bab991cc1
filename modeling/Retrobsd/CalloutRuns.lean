import Retrobsd.CalloutAgenda

/-! Runs of `timeout`, `untimeout`, clock ticks and turns of `softclock` in any
order, next to the same run on an agenda of absolute deadlines. -/
namespace Retrobsd.Callouts
open Function (update update_of_ne update_self)
open Lib.Chains Lib.Deltas Lib.Run

variable {φ α : Type}

theorem coutinitLoop_spec : ∀ (turns : Nat) {s : Table φ α} {i : Nat}, (∀ p, i ≤ p → s.cNext p = 0) → 0 < i →
    Chain (coutinitLoop turns s i).cNext 0 i (List.range' i (turns + 1)) ∧
      (∀ p, p < i ∨ i + turns ≤ p → (coutinitLoop turns s i).cNext p = s.cNext p) ∧
      (coutinitLoop turns s i).callfree = s.callfree
  | 0,s,i,clear,positive => by
    refine ⟨?_,fun _ _ => rfl,rfl⟩
    rw [List.range'_one]
    apply chain_cons.mpr
    exact ⟨rfl,by omega,chain_nil.mpr (clear i (le_refl i))⟩
  | turns + 1,s,i,clear,positive => by
    obtain ⟨linked,outside,free⟩ := @coutinitLoop_spec turns {s with cNext := update s.cNext i (i + 1)} (i + 1)
      (fun p later => (update_of_ne (by omega) _ _).trans (clear p (by omega))) (by omega)
    refine ⟨?_,?_,free⟩
    · rw [List.range'_succ]
      apply chain_cons.mpr
      refine ⟨rfl,by omega,?_⟩
      have here : (coutinitLoop (turns + 1) s i).cNext i = i + 1 := by
        rw [coutinitLoop,outside i (by omega)]
        exact update_self _ _ _
      rw [here]
      exact linked
    · intro p away
      rw [coutinitLoop,outside p (by omega)]
      apply update_of_ne
      omega

theorem coutinit_refines {ncall : Nat} (cells : 0 < ncall) (f : φ) (g : α) :
    Refines ncall (coutinit ncall (boot f g)) ⟨0,[]⟩ [] (List.range' 1 ncall) := by
  obtain ⟨linked,outside,free⟩ := @coutinitLoop_spec φ α (ncall - 1) {boot f g with callfree := 1} 1 (fun _ _ => rfl) one_pos
  rw [show ncall - 1 + 1 = ncall by omega] at linked
  constructor
  · constructor
    · rintro (_ | _)
      · exact List.nodup_range'
      · exact List.nodup_nil
    · rintro (_ | _) (_ | _) other
      · exact absurd rfl other
      · exact List.disjoint_nil_right _
      · exact List.disjoint_nil_left _
      · exact absurd rfl other
    intro p
    constructor
    · intro inside
      exact ⟨false,List.mem_range'_1.mpr (by omega)⟩
    rintro ⟨(_ | _),member⟩
    · have := List.mem_range'_1.mp member
      omega
    · cases member
  · refine ⟨rfl,?_⟩
    rw [coutinit,outside (calltodo ncall) (by unfold calltodo; omega)]
    rfl
  · rw [coutinit,free]
    exact linked
  · rfl
  · rfl
  · exact List.Pairwise.nil
  · simp [Agenda.deadlines]

inductive Op (φ α : Type) where
  | timeout (func : φ) (arg : α) (t : Int)
  | untimeout (func : φ) (arg : α)
  | hardclock
  | softclock

inductive Result (φ α : Type) where
  | done
  | needsoft (due : Bool)
  | called (call : Option (φ × α))
deriving DecidableEq

section
variable [DecidableEq φ] [DecidableEq α]

def perform (ncall : Nat) (s : Table φ α) : Op φ α → Except Fault (Table φ α × Result φ α)
  | .timeout f g t => (timeout ncall s f g t).map fun s => (s,.done)
  | .untimeout f g => (untimeout ncall s f g).map fun s => (s,.done)
  | .hardclock => (hardclock ncall s).map fun (s,due) => (s,.needsoft due)
  | .softclock => .ok ((softclockTurn ncall s).1,.called (softclockTurn ncall s).2)

def step (ncall : Nat) (s : Table φ α) (op : Op φ α) : Except Fault (Table φ α) := (perform ncall s op).map Prod.fst

/-- What the operation means: a call is entered with the tick at which it is due,
and a turn of `softclock` makes the first call when that tick has come. -/
def Agenda.perform (a : Agenda φ α) : Op φ α → Agenda φ α × Result φ α
  | .timeout f g t => (a.enter ⟨f,g,a.now + max t 1⟩,.done)
  | .untimeout f g => (a.remove f g,.done)
  | .hardclock => ({a with now := a.now + 1},.needsoft (a.deadlines.any (decide <| · ≤ a.now + 1)))
  | .softclock => match a.entries with
    | [] => (a,.called none)
    | e :: es => if e.deadline ≤ a.now then ({a with entries := es},.called (some e.call)) else (a,.called none)

def both (ncall : Nat) (sa : Table φ α × Agenda φ α) (op : Op φ α) : Except Fault (Table φ α × Agenda φ α) :=
  (step ncall sa.1 op).map fun s => (s,(sa.2.perform op).1)

/-- `timeout` is called with an `int` and while fewer than `NCALL` calls are
pending, and no call waits for `softclock` for `2^31` ticks. -/
def Timely (ncall : Nat) (sa : Table φ α × Agenda φ α) : Op φ α → Prop
  | .timeout _ _ t => sa.2.entries.length < ncall ∧ t < 2^31
  | .hardclock => ∀ e ∈ sa.2.entries, sa.2.now - e.deadline < 2^31
  | _ => True

/-- What holds of the queue in every state: its cells and the free ones partition
the table, it keeps the calls of the agenda in the order of their deadlines, and
a call is due when its time and all before it are not positive. -/
structure Keeps (ncall : Nat) (s : Table φ α) (a : Agenda φ α) (todo free : List Nat) : Prop where
  parted : Partition (fun p => 1 ≤ p ∧ p ≤ ncall) (group todo free)
  queue : Chain s.cNext 0 (s.cNext (calltodo ncall)) todo
  spare : Chain s.cNext 0 s.callfree free
  calls : (todo.map fun p => (s.cFunc p,s.cArg p)) = a.entries.map Entry.call
  ordered : a.entries.Pairwise fun e e' => e.deadline ≤ e'.deadline
  due : ∀ i e, a.entries[i]? = some e → (e.deadline ≤ a.now ↔ ∀ p ∈ todo.take (i + 1), s.cTime p ≤ 0)

end

variable {ncall : Nat} {s : Table φ α} {a : Agenda φ α} {todo free : List Nat}

theorem Refines.keeps (refines : Refines ncall s a todo free) : Keeps ncall s a todo free where
  parted := refines.parted
  queue := ⟨refines.queue.2,refines.real⟩
  spare := refines.spare
  calls := refines.calls
  ordered := List.pairwise_map.mp refines.sorted
  due i e found := by
    have there : a.deadlines[i]? = some e.deadline := by simp [Agenda.deadlines,found]
    rw [due_iff refines.sorted there,← refines.times,← List.map_take]
    exact List.forall_mem_map

def softclock (ncall : Nat) : Nat → Table φ α → Table φ α × List (φ × α)
  | 0,s => (s,[])
  | turns + 1,s => match softclockTurn ncall s with
    | (s,none) => (s,[])
    | (s,some call) => ((softclock ncall turns s).1,call :: (softclock ncall turns s).2)

theorem softclock_spec : ∀ (turns : Nat) {s : Table φ α} {a : Agenda φ α} {todo free : List Nat},
    Refines ncall s a todo free → a.entries.length < turns →
    ∃ s' todo' free', softclock ncall turns s = (s',(a.entries.takeWhile (decide <| ·.deadline ≤ a.now)).map Entry.call) ∧
      Refines ncall s' {a with entries := a.entries.dropWhile (decide <| ·.deadline ≤ a.now)} todo' free'
  | 0,_,_,_,_,_,few => by omega
  | turns + 1,s,a,todo,free,refines,few => by
    cases shape : a.entries with
    | nil =>
      have same : ({a with entries := []} : Agenda φ α) = a := by rw [← shape]
      refine ⟨s,todo,free,?_,by rw [List.dropWhile_nil,same]; exact refines⟩
      simp [softclock,softclockTurn_idle refines (by simp [shape])]
    | cons e es =>
      by_cases due : e.deadline ≤ a.now
      · obtain ⟨s',todo',free',ok,next⟩ := softclockTurn_calls refines shape due
        rw [shape] at few
        obtain ⟨s'',todo'',free'',ok',done⟩ := softclock_spec turns next (by simpa using few)
        refine ⟨s'',todo'',free'',?_,by simpa [due] using done⟩
        rw [softclock,ok]
        simp only [ok']
        simp [due]
      · have idle := softclockTurn_idle refines (by simpa [shape] using due)
        have same : ({a with entries := e :: es} : Agenda φ α) = a := by rw [← shape]
        refine ⟨s,todo,free,?_,by rw [List.dropWhile_cons_of_neg (by simpa using due),same]; exact refines⟩
        simp [softclock,idle,due]

section
variable [DecidableEq φ] [DecidableEq α]

theorem perform_refines (refines : Refines ncall s a todo free) (op : Op φ α) (timely : Timely ncall (s,a) op) :
    ∃ s' todo' free', perform ncall s op = .ok (s',(a.perform op).2) ∧ Refines ncall s' (a.perform op).1 todo' free' := by
  cases op with
  | timeout f g t =>
    obtain ⟨s',todo',free',ok,after⟩ := timeout_refines refines timely.1 f g timely.2
    exact ⟨s',todo',free',by simp [perform,ok,Except.map,Agenda.perform],after⟩
  | untimeout f g =>
    obtain ⟨s',todo',free',ok,after⟩ := untimeout_refines refines f g
    exact ⟨s',todo',free',by simp [perform,ok,Except.map,Agenda.perform],after⟩
  | hardclock =>
    obtain ⟨s',ok,after⟩ := hardclock_refines refines (by
      intro d member
      obtain ⟨e,inside,rfl⟩ := List.mem_map.mp member
      exact timely e inside)
    exact ⟨s',todo,free,by simp [perform,ok,Except.map,Agenda.perform],after⟩
  | softclock =>
    cases shape : a.entries with
    | nil =>
      have idle := softclockTurn_idle refines (by simp [shape])
      exact ⟨s,todo,free,by simp [perform,idle,Agenda.perform,shape],by simpa [Agenda.perform,shape] using refines⟩
    | cons e es =>
      by_cases due : e.deadline ≤ a.now
      · obtain ⟨s',todo',free',ok,after⟩ := softclockTurn_calls refines shape due
        exact ⟨s',todo',free',by simp [perform,ok,Agenda.perform,shape,due],by simpa [Agenda.perform,shape,due] using after⟩
      have idle := softclockTurn_idle refines (by simpa [shape] using due)
      exact ⟨s,todo,free,by simp [perform,idle,Agenda.perform,shape,due],by simpa [Agenda.perform,shape,due] using refines⟩

instance Timely.decidable (sa : Table φ α × Agenda φ α) : ∀ op : Op φ α, Decidable (Timely ncall sa op)
  | .timeout _ _ _ => inferInstanceAs (Decidable (_ ∧ _))
  | .hardclock => inferInstanceAs (Decidable (∀ e ∈ sa.2.entries, _ < _))
  | .untimeout _ _ | .softclock => .isTrue trivial

/-- Along every run in which no due call is left waiting for `2^31` ticks, the
queue keeps the agenda and every operation answers as the agenda does; all turns
of a `softclock` together make each due call once, the earliest first. -/
theorem callouts_refined (cells : 0 < ncall) (f : φ) (g : α) (ops : List (Op φ α))
    (timely : Along (both ncall) (Timely ncall) (coutinit ncall (boot f g),⟨0,[]⟩) ops) :
    ∃ s a, run (both ncall) (coutinit ncall (boot f g),⟨0,[]⟩) ops = .ok (s,a) ∧ (∃ todo free, Keeps ncall s a todo free) ∧
      (∀ op, Timely ncall (s,a) op → ∃ s', perform ncall s op = .ok (s',(a.perform op).2)) ∧
      ∃ s' todo free,softclock ncall (ncall + 1) s = (s',(a.entries.takeWhile (decide <| ·.deadline ≤ a.now)).map Entry.call) ∧
        Keeps ncall s' {a with entries := a.entries.dropWhile (decide <| ·.deadline ≤ a.now)} todo free := by
  have progress : ∀ (sa : Table φ α × Agenda φ α) (op : Op φ α), (∃ todo free, Refines ncall sa.1 sa.2 todo free) →
      Timely ncall sa op → ∃ sa', both ncall sa op = .ok sa' ∧ ∃ todo free, Refines ncall sa'.1 sa'.2 todo free := by
    rintro ⟨s,a⟩ op ⟨todo,free,refines⟩ allowed
    obtain ⟨s',todo',free',ok,after⟩ := perform_refines refines op allowed
    exact ⟨(s',(a.perform op).1),by simp [both,step,ok,Except.map],todo',free',after⟩
  obtain ⟨⟨s,a⟩,ended,todo,free,refines⟩ := run_total progress ops _ ⟨[],List.range' 1 ncall,coutinit_refines cells f g⟩ timely
  refine ⟨s,a,ended,⟨todo,free,refines.keeps⟩,?_,?_⟩
  · intro op allowed
    obtain ⟨s',-,-,ok,-⟩ := perform_refines refines op allowed
    exact ⟨s',ok⟩
  have few : a.entries.length < ncall + 1 := by
    rw [← refines.length]
    exact Nat.lt_succ_of_le refines.length_le
  obtain ⟨s',todo',free',ok,after⟩ := softclock_spec (ncall + 1) refines few
  exact ⟨s',todo',free',ok,after.keeps⟩

def someOps : List (Op Nat Unit) :=
  [.timeout 1 () 2,.timeout 2 () 2,.timeout 3 () 5,.hardclock,.untimeout 1 (),.hardclock,.hardclock,.softclock,.timeout 4 () 0]

theorem callouts_refined_someOps : ∃ s a,
    run (both 18) (coutinit 18 (boot 0 ()),⟨0,[]⟩) someOps = .ok (s,a) ∧ ∃ todo free, Keeps 18 s a todo free := by
  obtain ⟨s,a,ended,kept,-⟩ := callouts_refined (by decide : 0 < 18) 0 () someOps (by decide +kernel)
  exact ⟨s,a,ended,kept⟩

theorem ticks_refine : ∀ (n : Nat) {s : Table φ α} {a : Agenda φ α} {todo free : List Nat},
    Refines ncall s a todo free → (∀ d ∈ a.deadlines, a.now + n - d ≤ 2^31) →
    ∃ s', run (step ncall) s (List.replicate n .hardclock) = .ok s' ∧ Refines ncall s' {a with now := a.now + n} todo free
  | 0,s,a,_,_,refines,_ => ⟨s,rfl,by simpa using refines⟩
  | n + 1,s,a,todo,free,refines,timely => by
    obtain ⟨s',ok,next⟩ := hardclock_refines refines (fun d member => by
      have := timely d member
      push_cast at this
      omega)
    obtain ⟨s'',ended,after⟩ := ticks_refine n next (fun d member => by
      have := timely d member
      push_cast at this
      simp only
      omega)
    refine ⟨s'',?_,?_⟩
    · rw [List.replicate_succ,run_cons_ok]
      · exact ended
      · simp [step,perform,ok,Except.map]
    · rw [show a.now + ((n + 1 : Nat) : Int) = a.now + 1 + n by push_cast; omega]
      exact after

end

/-- `c_time` of a due call that nobody serves counts down to the least `int` and
then starts again from the greatest, so that the call is not due any more. -/
theorem unserved_forgotten : ∃ s : Table Unit Unit,
    run (step 18) (coutinit 18 (boot () ())) (.timeout () () 1 :: List.replicate (2^31 + 2) .hardclock) = .ok s ∧
      s.cNext (calltodo 18) ≠ 0 ∧ 0 < s.cTime (s.cNext (calltodo 18)) := by
  obtain ⟨s₁,todo,free,entered,refines⟩ := timeout_refines (coutinit_refines (by decide : 0 < 18) () ())
    (by simp) () () (by norm_num : (1 : Int) < 2^31)
  have entries : (Agenda.enter ⟨0,[]⟩ (⟨(),(),0 + max 1 1⟩ : Entry Unit Unit)) = ⟨0,[⟨(),(),1⟩]⟩ := by
    simp [Agenda.enter]
  rw [entries] at refines
  obtain ⟨s₂,waited,late⟩ := ticks_refine (2^31 + 1) refines (by
    intro d member
    obtain rfl : d = 1 := by simpa [Agenda.deadlines] using member
    norm_num)
  obtain ⟨p,rest,cells,found,real,time,-⟩ := late.first rfl
  have single : rest = [] := by
    have length := late.length
    rw [cells] at length
    simpa using length
  have ends : s₂.cNext p = 0 := by
    have queue := late.queue.2
    rw [cells,single] at queue
    exact queue.2
  have least : s₂.cTime p = -2^31 := by
    rw [time]
    norm_num
  have wraps : int (s₂.cTime p - 1) = 2^31 - 1 := by
    rw [least]
    rfl
  have last : hardclock 18 s₂ = .ok ({s₂ with cTime := update s₂.cTime p (2^31 - 1)},false) := by
    rw [hardclock,found,hardclockLoop,if_neg real]
    simp only [wraps]
    rfl
  refine ⟨{s₂ with cTime := update s₂.cTime p (2^31 - 1)},?_,?_,?_⟩
  · have first : step 18 (coutinit 18 (boot () ())) (.timeout () () 1) = .ok s₁ := by
      simp [step,perform,entered,Except.map]
    have final : step 18 s₂ (.hardclock : Op Unit Unit) = .ok {s₂ with cTime := update s₂.cTime p (2^31 - 1)} := by
      simp [step,perform,last,Except.map]
    rw [run_cons_ok _ first,show 2^31 + 2 = (2^31 + 1) + 1 from rfl,List.replicate_succ',run_append_ok _ _ waited]
    exact run_cons_ok [] final
  · simpa [found] using real
  · simp [found]

end Retrobsd.Callouts

import Retrobsd.SleepQueues

/-! What is always true of the queues, and that `unsleep`, `setrq` and `wakeup` keep it.
A process that has put itself on a sleep queue and looks for signals is still in state
SRUN there; it is the one exception. -/
namespace Retrobsd.SleepQueues
open Function (update update_eq_self update_of_ne update_self)
open Lib.Threads

/-- Who runs and where processes go on, as it will be when a process that gives up the
processor has done so, and the process that is in its signal check. -/
structure View (n : Nat) where
  exempt : Option (Slot n)
  running : Option (Slot n)
  point : Slot n → Point

variable {n : Nat} {L : Layout n} {s t : State n} {lists : Queue → List (Slot n)} {x : View n} {p : Slot n}

structure Sound (s : State n) (lists : Queue → List (Slot n)) (x : View n) : Prop where
  holds : Holds s.queues lists
  sleeping : ∀ k p, p ∈ lists (.slpque k) ↔ s.wchan p ≠ 0 ∧ hash (s.wchan p) = k
  asleep : ∀ p, s.wchan p ≠ 0 → x.exempt ≠ some p → s.stat p = .ssleep ∨ s.stat p = .sstop
  ready : ∀ p, p ∈ lists .qs ↔ s.stat p = .srun ∧ s.loaded p = true ∧ (x.running = some p → x.point p = .yields)
  current : ∀ p, x.running = some p → s.loaded p = true ∧
    (x.point p ≠ .yields → s.stat p = .srun ∧ (x.exempt = some p ∨ s.wchan p = 0))
  yielding : ∀ p, x.point p = .yields → x.running = some p

theorem Sound.length (sound : Sound s lists x) (q : Queue) : (lists q).length ≤ n + 2 := by
  simpa using (sound.holds.once q).length_le_card

theorem Sound.listed (sound : Sound s lists x) (q : Queue) :
    s.listed q = lists q := walk_eq (sound.holds.forward q) (sound.length q)

theorem Sound.awake (sound : Sound s lists x) (awake : s.wchan p = 0) (k : Fin 16) : p ∉ lists (.slpque k) :=
  fun inside => ((sound.sleeping k p).mp inside).1 awake

variable {k : Fin 16} {a l : List (Slot n)} {chan : Nat} {r : State n}

section
variable (sound : Sound s lists x)
include sound

theorem Sound.remove (member : p ∈ lists (.slpque k)) : ∃ queues, s.queues.delete p (n + 2) (.head (.slpque k)) = some queues ∧
      Sound {s with queues,wchan := update s.wchan p 0} (update lists (.slpque k) ((lists (.slpque k)).erase p)) x := by
  obtain ⟨chan,rfl⟩ := (sound.sleeping k p).mp member
  obtain ⟨queues,found,holds⟩ := sound.holds.delete member (sound.length _)
  refine ⟨queues,found,holds,fun k q => ?_,fun q set other => ?_,fun q => ?_,fun q runs => ?_,sound.yielding⟩
  · have once := sound.holds.once (.slpque (hash (s.wchan p)))
    have before := sound.sleeping k q
    dsimp only
    rcases eq_or_ne q p with rfl | ne
    · rw [update_self]
      refine ⟨fun inside => ?_,fun ⟨set,_⟩ => absurd rfl set⟩
      rcases eq_or_ne k (hash (s.wchan q)) with rfl | elsewhere
      · rw [update_self] at inside
        exact absurd inside once.not_mem_erase
      rw [update_of_ne (by simpa using elsewhere)] at inside
      exact absurd (before.mp inside).2.symm elsewhere
    · rw [update_of_ne ne]
      rcases eq_or_ne k (hash (s.wchan p)) with rfl | elsewhere
      · rw [update_self,List.mem_erase_of_ne ne]
        exact before
      rw [update_of_ne (by simpa using elsewhere)]
      exact before
  · dsimp only at set
    rcases eq_or_ne q p with rfl | ne
    · rw [update_self] at set
      exact absurd rfl set
    rw [update_of_ne ne] at set
    exact sound.asleep q set other
  · rw [update_of_ne (by simp)]
    exact sound.ready q
  · refine ⟨(sound.current q runs).1,fun code => ⟨((sound.current q runs).2 code).1,?_⟩⟩
    dsimp only
    rcases eq_or_ne q p with rfl | ne
    · exact .inr (update_self _ _ _)
    rw [update_of_ne ne]
    exact ((sound.current q runs).2 code).2

theorem unsleep_sound (p : Slot n) : ∃ queues lists', unsleep s p = .ok {s with queues,wchan := update s.wchan p 0} ∧
      Sound {s with queues,wchan := update s.wchan p 0} lists' x := by
  rw [unsleep]
  split_ifs with awake
  · have same : update s.wchan p 0 = s.wchan := by
      rw [← awake]
      exact update_eq_self _ _
    exact ⟨s.queues,lists,by rw [same],by rw [same]; exact sound⟩
  · obtain ⟨queues,found,after⟩ := sound.remove ((sound.sleeping _ p).mpr ⟨awake,rfl⟩)
    rw [found]
    exact ⟨queues,_,rfl,after⟩

theorem Sound.settle (exempt : x.exempt = some p) (awake : s.wchan p = 0) : Sound s lists {x with exempt := none} := by
  refine ⟨sound.holds,sound.sleeping,fun q chan _ => ?_,sound.ready,fun q runs => ?_,sound.yielding⟩
  · refine sound.asleep q chan fun same => chan ?_
    rw [← Option.some.inj (exempt.symm.trans same),awake]
  refine ⟨(sound.current q runs).1,fun code => ⟨((sound.current q runs).2 code).1,.inr ?_⟩⟩
  rcases ((sound.current q runs).2 code).2 with same | none
  · rw [← Option.some.inj (exempt.symm.trans same),awake]
  · exact none

theorem runnable_sound (awake : s.wchan p = 0) (off : s.stat p ≠ .srun) (yields : x.running = some p → x.point p = .yields) :
    ∃ queues lists', runnable s p = .ok {s with queues,stat := update s.stat p .srun} ∧
      Sound {s with queues,stat := update s.stat p .srun} lists' x ∧
      (∀ k, lists' (.slpque k) = lists (.slpque k)) := by
  have absent : p ∉ lists .qs := fun inside => off ((sound.ready p).mp inside).1
  have still : ∀ q, update s.stat p .srun q = .ssleep ∨ update s.stat p .srun q = .sstop ↔
    q ≠ p ∧ (s.stat q = .ssleep ∨ s.stat q = .sstop) := by
    intro q
    rcases eq_or_ne q p with rfl | ne
    · simp
    · simp [ne]
  have asleep : ∀ q, s.wchan q ≠ 0 → x.exempt ≠ some q → update s.stat p .srun q = .ssleep ∨
    update s.stat p .srun q = .sstop := by
    intro q chan other
    refine (still q).mpr ⟨?_,sound.asleep q chan other⟩
    rintro rfl
    exact chan awake
  have current : ∀ q, x.running = some q →
      s.loaded q = true ∧ (x.point q ≠ .yields → update s.stat p .srun q = .srun ∧ (x.exempt = some q ∨ s.wchan q = 0)) := by
    intro q runs
    refine ⟨(sound.current q runs).1,fun code => ?_⟩
    have ne : q ≠ p := by
      rintro rfl
      exact code (yields runs)
    rw [update_of_ne ne]
    exact (sound.current q runs).2 code
  rw [runnable]
  dsimp only
  split_ifs with loaded
  · have none : ∀ k, p ∉ lists k := by
      intro k
      cases k with
      | slpque k => exact sound.awake awake k
      | qs => exact absent
    refine ⟨s.queues.push .qs p,update lists .qs (p :: lists .qs),?_,
      ⟨sound.holds.push none,fun k q => ?_,asleep,fun q => ?_,current,sound.yielding⟩,
      fun k => update_of_ne (by simp) _ _⟩
    · rw [setrq,if_neg]
      exact fun inside => absent (sound.listed .qs ▸ inside)
    · rw [update_of_ne (by simp)]
      exact sound.sleeping k q
    rw [update_self]
    rcases eq_or_ne q p with rfl | ne
    · simp [loaded]
      exact yields
    simp only [update_of_ne ne,List.mem_cons,or_iff_right ne]
    exact sound.ready q
  · refine ⟨s.queues,lists,rfl,⟨sound.holds,sound.sleeping,asleep,fun q => ?_,current,sound.yielding⟩,fun _ => rfl⟩
    rcases eq_or_ne q p with rfl | ne
    · simp only [absent,loaded,false_iff]
      simp
    simp only [update_of_ne ne]
    exact sound.ready q

theorem Sound.drop (split : lists (.slpque k) = a ++ p :: l) :
    Sound {s with queues := s.queues.put ((Cell.head (.slpque k)).after a) (s.queues.next p),wchan := update s.wchan p 0}
      (update lists (.slpque k) (a ++ l)) x := by
  have once := sound.holds.once (.slpque k)
  rw [split] at once
  have absent : p ∉ a := fun inside => (List.nodup_append.mp once).2.2 p inside p List.mem_cons_self rfl
  have length := sound.length (.slpque k)
  rw [split,List.length_append,List.length_cons] at length
  have forward : Forward s.queues.next (s.queues.get (.head (.slpque k))) (a ++ p :: l) :=
    split ▸ sound.holds.forward (.slpque k)
  have erased : (lists (.slpque k)).erase p = a ++ l := by
    rw [split,List.erase_append_right _ absent,List.erase_cons_head]
  obtain ⟨queues,found,after⟩ := sound.remove (k := k) (p := p) (by simp [split])
  rw [delete_after forward absent (by omega)] at found
  cases found
  rw [erased] at after
  exact after

end

def queued (s : State n) : Nat := (Finset.univ.filter fun p => s.wchan p ≠ 0).card

theorem queued_le (s : State n) : queued s ≤ n + 2 := by
  have most := Finset.card_le_univ (Finset.univ.filter fun p => s.wchan p ≠ 0)
  rwa [Fintype.card_fin] at most

theorem queued_lt {wchan : Slot n → Nat} (before : s.wchan p ≠ 0) (after : wchan p = 0)
    (others : ∀ q, wchan q ≠ 0 → s.wchan q ≠ 0) :
    (Finset.univ.filter fun q => wchan q ≠ 0).card < queued s := by
  refine Finset.card_lt_card (Finset.ssubset_iff_of_subset (fun q inside => ?_) |>.mpr ⟨p,by simp [before],by simp [after]⟩)
  simp only [Finset.mem_filter,Finset.mem_univ,true_and] at inside ⊢
  exact others q inside

def Nested (s : State n) (chan : Nat) : Prop := s.runout = true ∧ ∃ q, s.wchan q = chan ∧ s.stat q = .ssleep ∧ s.loaded q = false

/-- The processes that a call of `wakeup` is for: those that wait on its channel, and if
one of them is to be swapped in, those that wait on `runout`. -/
def Woken (L : Layout n) (s : State n) (chan : Nat) (p : Slot n) : Prop :=
    s.wchan p = chan ∨ Nested s chan ∧ s.wchan p = L.runout

structure Wakes (L : Layout n) (s t : State n) (chan : Nat) : Prop where
  rest : t = {s with queues := t.queues,wchan := t.wchan,stat := t.stat,runout := t.runout}
  woken : ∀ p, Woken L s chan p → t.wchan p = 0 ∧ t.stat p = if s.stat p = .ssleep then .srun else s.stat p
  others : ∀ p, ¬ Woken L s chan p → t.wchan p = s.wchan p ∧ t.stat p = s.stat p
  runout : t.runout = true ↔ s.runout = true ∧ ¬ Nested s chan

theorem wakes_nobody (none : ∀ p, s.wchan p ≠ chan) : Wakes L s s chan := by
  have alone : ¬ Nested s chan := fun ⟨_,q,same,_⟩ => none q same
  refine ⟨rfl,fun p woken => ?_,fun p _ => ⟨rfl,rfl⟩,?_⟩
  · rcases woken with same | ⟨nested,_⟩
    · exact absurd same (none p)
    · exact absurd nested alone
  · simp [alone]

/-- One process that waits on the channel is taken off its queue and made to run if it
was asleep. -/
structure Roused (s r : State n) (p : Slot n) : Prop where
  rest : r = {s with queues := r.queues,wchan := r.wchan,stat := r.stat}
  chan : r.wchan p = 0
  stat : r.stat p = if s.stat p = .ssleep then .srun else s.stat p
  wchans : ∀ q, q ≠ p → r.wchan q = s.wchan q
  stats : ∀ q, q ≠ p → r.stat q = s.stat q

theorem Roused.runout (roused : Roused s r p) : r.runout = s.runout := by rw [roused.rest]

theorem Roused.loaded (roused : Roused s r p) : r.loaded = s.loaded := by rw [roused.rest]

theorem Roused.woken (roused : Roused s r p) (here : s.wchan p = chan) (real : chan ≠ 0)
    (quiet : ¬ (s.runout = true ∧ s.stat p = .ssleep ∧ s.loaded p = false)) : Nested r chan ↔ Nested s chan := by
  rw [Nested,Nested,roused.runout,roused.loaded]
  refine and_congr_right fun runs => exists_congr fun q => ?_
  rcases eq_or_ne q p with rfl | ne
  · refine ⟨fun ⟨same,_⟩ => absurd (same.symm.trans roused.chan) real,fun ⟨_,asleep,out⟩ => ?_⟩
    exact absurd ⟨runs,asleep,out⟩ quiet
  · rw [roused.wchans q ne,roused.stats q ne]

theorem Wakes.after (real : chan ≠ 0) (runs : L.runout ≠ 0) (here : s.wchan p = chan) (roused : Roused s r p)
    (quiet : ¬ (s.runout = true ∧ s.stat p = .ssleep ∧ s.loaded p = false)) (wakes : Wakes L r t chan) : Wakes L s t chan := by
  have nested := roused.woken here real quiet
  have same : ∀ q, q ≠ p → (Woken L r chan q ↔ Woken L s chan q) := fun q ne => by
    rw [Woken,Woken,nested,roused.wchans q ne]
  have off : ¬ Woken L r chan p := by
    rintro (zero | ⟨_,zero⟩)
    · exact real (zero.symm.trans roused.chan)
    · exact runs (zero.symm.trans roused.chan)
  refine ⟨?_,fun q woken => ?_,fun q other => ?_,?_⟩
  · rw [wakes.rest,roused.rest]
  · rcases eq_or_ne q p with rfl | ne
    · rw [← roused.stat,← roused.chan]
      exact wakes.others q off
    rw [← roused.stats q ne]
    exact wakes.woken q ((same q ne).mpr woken)
  · have ne : q ≠ p := by
      rintro rfl
      exact other (.inl here)
    rw [← roused.wchans q ne,← roused.stats q ne]
    exact wakes.others q fun woken => other ((same q ne).mp woken)
  · rw [wakes.runout,nested,roused.runout]

theorem Wakes.after_nested {u : State n} (real : chan ≠ 0) (runs : L.runout ≠ 0) (here : s.wchan p = chan)
    (roused : Roused s r p) (loud : s.runout = true ∧ s.stat p = .ssleep ∧ s.loaded p = false)
    (inner : Wakes L {r with runout := false} u L.runout) (wakes : Wakes L u t chan) : Wakes L s t chan := by
  have nested : Nested s chan := ⟨loud.1,p,here,loud.2⟩
  have first : ∀ q, Woken L {r with runout := false} L.runout q ↔ r.wchan q = L.runout := by
    intro q
    refine ⟨fun woken => woken.elim id fun both => both.2,.inl⟩
  have silent : u.runout = false := by
    by_contra up
    exact absurd (inner.runout.mp (by simpa using up)).1 Bool.false_ne_true
  have second : ∀ q, Woken L u chan q ↔ u.wchan q = chan := by
    intro q
    refine ⟨fun woken => woken.elim id fun both => ?_,.inl⟩
    exact absurd (silent.symm.trans both.1.1) Bool.false_ne_true
  have inside : ∀ q, r.wchan q = L.runout → u.wchan q = 0 ∧ u.stat q = if r.stat q = .ssleep then .srun else r.stat q :=
    fun q waits => inner.woken q ((first q).mpr waits)
  have outside : ∀ q, r.wchan q ≠ L.runout → u.wchan q = r.wchan q ∧ u.stat q = r.stat q :=
    fun q other => inner.others q fun woken => other ((first q).mp woken)
  have ends : ∀ q, u.wchan q ≠ chan → t.wchan q = u.wchan q ∧ t.stat q = u.stat q :=
    fun q other => wakes.others q fun woken => other ((second q).mp woken)
  have loaded : u.loaded = s.loaded := by rw [inner.rest,roused.rest]
  refine ⟨?_,fun q woken => ?_,fun q other => ?_,?_⟩
  · rw [wakes.rest,inner.rest,roused.rest]
  · rcases eq_or_ne q p with rfl | ne
    · have still := outside q (by rw [roused.chan]; exact runs.symm)
      have last := ends q (by rw [still.1,roused.chan]; exact real.symm)
      exact ⟨last.1.trans (still.1.trans roused.chan),last.2.trans (still.2.trans roused.stat)⟩
    by_cases waits : s.wchan q = L.runout
    · have done := inside q (by rw [roused.wchans q ne,waits])
      have last := ends q (by rw [done.1]; exact real.symm)
      rw [roused.stats q ne] at done
      exact ⟨last.1.trans done.1,last.2.trans done.2⟩
    have still := outside q (by rw [roused.wchans q ne]; exact waits)
    rw [roused.wchans q ne,roused.stats q ne] at still
    have own : s.wchan q = chan := woken.elim id fun both => absurd both.2 waits
    rw [← still.2]
    exact wakes.woken q ((second q).mpr (still.1.trans own))
  · have ne : q ≠ p := by
      rintro rfl
      exact other (.inl here)
    have still := outside q (by rw [roused.wchans q ne]; exact fun waits => other (.inr ⟨nested,waits⟩))
    rw [roused.wchans q ne,roused.stats q ne] at still
    have last := ends q (by rw [still.1]; exact fun waits => other (.inl waits))
    exact ⟨last.1.trans still.1,last.2.trans still.2⟩
  · rw [wakes.runout]
    constructor
    · exact fun up => absurd (silent.symm.trans up.1) Bool.false_ne_true
    · exact fun up => absurd nested up.2

/-- The process in its signal check is on no queue that `wakeup` goes through. -/
def Clear (L : Layout n) (s : State n) (x : View n) (chan : Nat) : Prop :=
  ∀ p, x.exempt = some p → s.wchan p ≠ 0 → hash (s.wchan p) ≠ hash chan ∧ (s.runout = true → hash (s.wchan p) ≠ hash L.runout)

theorem clear_none (none : x.exempt = none) (chan : Nat) :
    Clear L s x chan := fun _ same => absurd (none.symm.trans same) (by simp)

theorem Clear.less {other : Nat} (clear : Clear L s x chan) (less : ∀ q, t.wchan q ≠ 0 → t.wchan q = s.wchan q)
    (runout : t.runout = true → s.runout = true) (here : other = chan ∨ other = L.runout ∧ s.runout = true) :
    Clear L t x other := by
  intro p same asleep
  have before := less p asleep
  obtain ⟨one,two⟩ := clear p same (by rw [← before]; exact asleep)
  rw [before]
  refine ⟨?_,fun up => two (runout up)⟩
  rcases here with rfl | ⟨rfl,up⟩
  · exact one
  · exact two up

theorem Sound.yields (sound : Sound s lists x) (asleep : s.stat p ≠ .srun) (runs : x.running = some p) :
    x.point p = .yields := by
  by_contra code
  exact asleep ((sound.current p runs).2 code).1

theorem Roused.less (roused : Roused s r p) (q : Slot n) (asleep : r.wchan q ≠ 0) : r.wchan q = s.wchan q := by
  refine roused.wchans q ?_
  rintro rfl
  exact asleep roused.chan

theorem Sound.rouse (sound : Sound s lists x) (split : lists (.slpque k) = a ++ p :: l) (sleeps : s.stat p = .ssleep) :
    ∃ r lists', runnable {s with
        wchan := update s.wchan p 0
        queues := s.queues.put ((Cell.head (.slpque k)).after a) (s.queues.next p)} p = .ok r ∧
      Sound r lists' x ∧ Roused s r p := by
  have dropped := sound.drop split
  have off : s.stat p ≠ .srun := by simp [sleeps]
  obtain ⟨queues,lists',ran,made,_⟩ := runnable_sound dropped (update_self _ _ _) off fun now => dropped.yields off now
  refine ⟨_,lists',ran,made,rfl,update_self _ _ _,?_,fun q ne => update_of_ne ne _ _,fun q ne =>
    update_of_ne ne _ _⟩
  rw [if_pos sleeps]
  exact update_self _ _ _

theorem Roused.room {u : State n} {turns length : Nat} (roused : Roused s r p) (asleep : s.wchan p ≠ 0)
    (enough : queued s * (n + 3) + length ≤ turns) (less : ∀ q, u.wchan q ≠ 0 → r.wchan q ≠ 0)
    (sound : Sound u lists x) (k : Queue) :
    queued u * (n + 3) + (lists k).length + 1 ≤ turns := by
  have most : queued u ≤ queued r := Finset.card_le_card fun q inside => by
    simp only [Finset.mem_filter,Finset.mem_univ,true_and] at inside ⊢
    exact less q inside
  have fewer : queued r < queued s := queued_lt asleep roused.chan fun q set => roused.less q set ▸ set
  have short := sound.length k
  have product : (queued u + 1) * (n + 3) ≤ queued s * (n + 3) := Nat.mul_le_mul_right _ (by omega)
  rw [Nat.add_mul] at product
  omega

theorem wakeupFrom_spec (runs : L.runout ≠ 0) (turns : Nat) (sound : Sound s lists x)
    (clear : Clear L s x chan) (real : chan ≠ 0) (split : lists (.slpque (hash chan)) = a ++ l)
    (before : ∀ q ∈ a, s.wchan q ≠ chan)
    (enough : queued s * (n + 3) + l.length + 1 ≤ turns) :
    ∃ t lists', wakeupFrom L turns chan ((Cell.head (.slpque (hash chan))).after a) s = .ok t ∧
    Sound t lists' x ∧ Wakes L s t chan := by
  induction turns generalizing s lists chan a l with
  | zero => omega
  | succ turns ih =>
    have forward : Forward s.queues.next (s.queues.get ((Cell.head (.slpque (hash chan))).after a)) l := by
      refine Forward.after ?_
      rw [← split]
      exact sound.holds.forward _
    -- the loop begins again at the head of a queue
    have again : ∀ {u : State n} {lists : Queue → List (Slot n)} {other : Nat}, Sound u lists x → Clear L u x other → other ≠ 0 →
        queued u * (n + 3) + (lists (.slpque (hash other))).length + 1 ≤ turns →
        ∃ t lists', wakeupFrom L turns other (.head (.slpque (hash other))) u = .ok t ∧ Sound t lists' x ∧
        Wakes L u t other := by
      intro u lists other heard free nonzero room
      exact ih (a := []) heard free nonzero (List.nil_append _).symm (fun q inside => absurd inside List.not_mem_nil) room
    rw [wakeupFrom]
    cases l with
    | nil =>
      rw [show s.queues.get _ = none from forward]
      refine ⟨s,lists,rfl,sound,wakes_nobody fun q waits => ?_⟩
      have inside : q ∈ lists (.slpque (hash chan)) := (sound.sleeping _ q).mpr ⟨by rw [waits]; exact real,by rw [waits]⟩
      rw [split,List.append_nil] at inside
      exact before q inside waits
    | cons p l =>
      rw [show s.queues.get _ = some p from forward.1]
      obtain ⟨asleep,same⟩ := (sound.sleeping (hash chan) p).mp (by simp [split])
      have regular : x.exempt ≠ some p := fun exempt => (clear p exempt asleep).1 same
      have state := sound.asleep p asleep regular
      dsimp only
      rw [if_neg (by rintro ⟨one,two⟩; exact state.elim one two)]
      rw [List.length_cons] at enough
      by_cases here : s.wchan p = chan
      · rw [if_pos here]
        by_cases sleeps : s.stat p = .ssleep
        · obtain ⟨r,lists',ran,made,roused⟩ := sound.rouse split sleeps
          rw [if_pos sleeps,ran]
          dsimp only
          have room : queued s * (n + 3) + (l.length + 1) ≤ turns := by omega
          by_cases loud : ¬ r.loaded p = true ∧ r.runout = true
          · rw [if_pos loud]
            have up : s.runout = true := roused.runout ▸ loud.2
            have quieter : Sound {r with runout := false} lists' x :=
              ⟨made.holds,made.sleeping,made.asleep,made.ready,made.current,made.yielding⟩
            obtain ⟨u,lists'',inner,heard,within⟩ := again quieter
              (clear.less roused.less (fun set => absurd set Bool.false_ne_true) (.inr ⟨rfl,up⟩)) runs
              (roused.room asleep room (u := {r with runout := false}) (fun q set => set) quieter _)
            rw [inner]
            dsimp only
            have less : ∀ q, u.wchan q ≠ 0 → u.wchan q = r.wchan q := by
              intro q set
              by_cases woken : Woken L {r with runout := false} L.runout q
              · exact absurd (within.woken q woken).1 set
              · exact (within.others q woken).1
            have fewer : ∀ q, u.wchan q ≠ 0 → r.wchan q ≠ 0 := fun q set => less q set ▸ set
            obtain ⟨t,nested,ended,sound',outer⟩ :=
              again heard (clear.less (fun q set => (less q set).trans (roused.less q (fewer q set)))
                (fun set => absurd (within.runout.mp set).1 Bool.false_ne_true) (.inl rfl)) real
              (roused.room asleep room fewer heard _)
            refine ⟨t,nested,ended,sound',Wakes.after_nested real runs here roused ⟨up,sleeps,?_⟩ within outer⟩
            rw [← roused.loaded]
            simpa using loud.1
          · rw [if_neg loud]
            obtain ⟨t,lists'',ended,sound',outer⟩ :=
              again made (clear.less roused.less (fun set => roused.runout ▸ set) (.inl rfl)) real
              (roused.room asleep room (fun q set => set) made _)
            refine ⟨t,lists'',ended,sound',Wakes.after real runs here roused (fun bad => loud ⟨?_,?_⟩) outer⟩
            · rw [roused.loaded,bad.2.2]
              simp
            rw [roused.runout]
            exact bad.1
        · have dropped := sound.drop split
          have roused : Roused s {s with
              queues := s.queues.put ((Cell.head (.slpque (hash chan))).after a) (s.queues.next p)
              wchan := update s.wchan p 0} p := by
            refine ⟨rfl,update_self _ _ _,?_,fun q ne => update_of_ne ne _ _,fun q _ => rfl⟩
            rw [if_neg sleeps]
          rw [if_neg sleeps]
          have fewer := queued_lt asleep roused.chan fun q set => roused.less q set ▸ set
          obtain ⟨t,lists',ended,sound',outer⟩ := ih dropped (clear.less roused.less id (.inl rfl)) real (update_self _ _ _)
            (fun q inside waits => before q inside (by rw [← roused.less q (by rw [waits]; exact real)]; exact waits))
            (by
              have product := Nat.mul_le_mul_right (n + 3) (Nat.succ_le_of_lt fewer)
              rw [Nat.succ_mul] at product
              simp only [queued] at product enough ⊢
              omega)
          exact ⟨t,lists',ended,sound',Wakes.after real runs here roused (fun bad => sleeps bad.2.1) outer⟩
      · rw [if_neg here,← after_snoc (Cell.head (.slpque (hash chan))) a p]
        refine ih (l := l) sound clear real (by rw [split]; simp) (fun q inside => ?_) (by omega)
        rcases List.mem_append.mp inside with old | new
        · exact before q old
        rw [List.mem_singleton.mp new]
        exact here

theorem wakeup_spec (runs : L.runout ≠ 0) (sound : Sound s lists x) (clear : Clear L s x chan) (real : chan ≠ 0) :
    ∃ t lists', wakeup L s chan = .ok t ∧ Sound t lists' x ∧ Wakes L s t chan := by
  refine wakeupFrom_spec runs _ (a := []) sound clear real (List.nil_append _).symm (fun q inside => by cases inside) ?_
  have length := sound.length (.slpque (hash chan))
  have most : queued s * (n + 3) ≤ (n + 2) * (n + 3) := Nat.mul_le_mul_right _ (queued_le s)
  have square : (n + 3) * (n + 3) = (n + 2) * (n + 3) + (n + 3) := by ring
  omega

end Retrobsd.SleepQueues
